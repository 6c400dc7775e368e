/-
The root runs `idle`, which loops in user code.

So it is always runnable or runs, and the scheduler finds a thread whenever another one gives
way, blocks or ends: `scheduler_finds_along`. What has to be shown is that no operation ends
the root or makes it wait. Its thread is the only one of its process, so no `task_vanish` of
another thread names it.
-/

import OsKernel.Dispatch.Runs

namespace OsKernel.Dispatch

open OsKernel.Sched

/-- The thread of the root, and its process. -/
def idle : Nat := 0

/-- `idle` makes no call and no fault. -/
def Idles (s : State) (i : Input) : Prop := s.running = some idle → i = .timer ∨ i = .keyboard

structure Resting (s : State) : Prop where
  made : idle < s.made
  kept : s.tcbFreed idle = false
  built : ¬ s.Building idle
  state : (s.tcb idle).state = .ready ∨ (s.tcb idle).state = .running
  pcb : (s.tcb idle).pcb = idle
  others : ∀ t, t < s.made → t ≠ idle → (s.tcb t).pcb ≠ idle

variable {s s' : State} {t u x : Thread} {p c : Nat} {pc : Pc} {d : Data} {i : Input} {l : List Thread}
variable {state : ThreadState} {detail : Option BlockingDetail}

theorem Resting.listed (resting : Resting s) : s.Listed idle := by
  refine ⟨⟨resting.made, resting.kept, resting.built⟩, ?_⟩
  rcases resting.state with ready | runs
  · simp [ready]
  · simp [runs]

/-- The lists change, or the tables of the processes. -/
theorem Resting.frame (resting : Resting s) (tcb : s'.tcb = s.tcb) (made : s'.made = s.made)
    (freed : s'.tcbFreed idle = s.tcbFreed idle) (pc : s'.pc = s.pc) : Resting s' where
  made := made ▸ resting.made
  kept := freed ▸ resting.kept
  built := by
    rw [State.Building, pc]
    exact resting.built
  state := by
    rw [tcb]
    exact resting.state
  pcb := by
    rw [tcb]
    exact resting.pcb
  others := by
    rw [tcb, made]
    exact resting.others

theorem Resting.goto (resting : Resting s) (none : pc.builds ≠ some idle) : Resting (s.goto t pc) := by
  refine ⟨resting.made, resting.kept, ?_, resting.state, resting.pcb, resting.others⟩
  rintro ⟨u, builds⟩
  by_cases self : u = t
  · rw [self, goto_pc_self] at builds
    exact none builds
  · rw [goto_pc_other self] at builds
    exact resting.built ⟨u, builds⟩

/-! ### States of threads -/

/-- Whatever `alter_state` does, only the state of its thread changes. -/
structure Touched (s s' : State) (t : Thread) (state : ThreadState) : Prop where
  made : s'.made = s.made
  freed : s'.tcbFreed = s.tcbFreed
  pc : s'.pc = s.pc
  pcb : ∀ u, (s'.tcb u).pcb = (s.tcb u).pcb
  states : ∀ u, (s'.tcb u).state = (s.tcb u).state ∨ u = t ∧ (s'.tcb u).state = state

theorem Touched.update {live : Rings} {drain : Drain.State} {tcb : Tcb} (pcb : tcb.pcb = (s.tcb t).pcb)
    (goes : tcb.state = state) (tcbs : live.tcb = Function.update s.live.tcb t tcb) :
    Touched s { s with live := live, drain := drain } t state := by
  have eq : State.tcb { s with live := live, drain := drain } = Function.update s.tcb t tcb := tcbs
  refine ⟨rfl, rfl, rfl, fun u => ?_, fun u => ?_⟩
  · rw [eq]
    by_cases self : u = t
    · rw [self, Function.update_self, pcb]
    · rw [Function.update_of_ne self]
  · rw [eq]
    by_cases self : u = t
    · exact .inr ⟨self, by rw [self, Function.update_self, goes]⟩
    · exact .inl (by rw [Function.update_of_ne self])

theorem touched_alter (s : State) (t : Thread) (state : ThreadState) (detail : Option BlockingDetail) :
    Touched s (s.alter t state detail) t state := by
  rw [State.alter]
  split_ifs with ends
  · subst ends
    rw [State.terminate]
    split_ifs
    · exact ⟨rfl, rfl, rfl, fun _ => rfl, fun _ => .inl rfl⟩
    · exact ⟨rfl, rfl, rfl, fun _ => rfl, fun _ => .inl rfl⟩
    · exact @Touched.update s t _ _ _ { s.tcb t with state := .terminated } rfl rfl rfl
  · cases moved : s.live.alterState s.made t state detail with
    | none => exact ⟨rfl, rfl, rfl, fun _ => rfl, fun _ => .inl rfl⟩
    | some live =>
        rw [Rings.alterState] at moved
        split_ifs at moved
        obtain ⟨place, -, rfl⟩ := Option.map_eq_some_iff.mp moved
        exact @Touched.update s t state _ s.drain (altered (s.tcb t) state detail) rfl rfl rfl

theorem Resting.touched (resting : Resting s) (touched : Touched s s' t state)
    (goes : t = idle → state = .ready ∨ state = .running) : Resting s' where
  made := touched.made ▸ resting.made
  kept := touched.freed ▸ resting.kept
  built := by
    rw [State.Building, touched.pc]
    exact resting.built
  state := by
    rcases touched.states idle with same | ⟨self, there⟩
    · rw [same]
      exact resting.state
    · rw [there]
      exact goes self.symm
  pcb := by
    rw [touched.pcb]
    exact resting.pcb
  others u made other := by
    rw [touched.pcb]
    exact resting.others u (touched.made ▸ made) other

theorem Resting.alter (resting : Resting s) (detail : Option BlockingDetail)
    (goes : t = idle → state = .ready ∨ state = .running) : Resting (s.alter t state detail) :=
  resting.touched (touched_alter s t state detail) goes

/-- The root may lose the processor, but goes on. -/
theorem Resting.switchContext (resting : Resting s) (u : Thread) (detail : Option BlockingDetail)
    (goes : s.running = some idle → state = .ready) : Resting (s.switchContext u state detail) := by
  rw [State.switchContext]
  split_ifs
  · exact resting
  · cases running : s.running with
    | none => exact resting
    | some r =>
        refine (resting.alter detail fun self => .inl (goes ?_)).alter none fun _ => .inr rfl
        rw [running, self]

theorem Resting.wake (resting : Resting s) (p : Nat) : Resting (s.wake p) := by
  rw [State.wake]
  split
  · exact resting
  · exact resting.alter none fun _ => .inl rfl

theorem Resting.terminateAll (resting : Resting s) (t : Thread) (out : idle ∉ l) :
    Resting (s.terminateAll t l) := by
  induction l generalizing s with
  | nil => exact resting
  | cons u rest ih =>
      rw [List.mem_cons, not_or] at out
      rw [State.terminateAll]
      refine ih ?_ out.2
      split_ifs
      · exact resting
      · exact resting.alter none fun self => absurd self.symm out.1

theorem roundRobin_frame (s : State) : s.roundRobin.1.tcb = s.tcb ∧ s.roundRobin.1.running = s.running := by
  rw [State.roundRobin, Rings.roundRobin]
  cases s.live.threadLists (.state .ready) with
  | none => exact ⟨rfl, rfl⟩
  | some h =>
      dsimp only
      split
      · rename_i u _
        have other : ListIdx.state .running ≠ .state .ready := by simp
        exact ⟨rfl, Function.update_of_ne other (some u) s.live.threadLists⟩
      · exact ⟨rfl, rfl⟩

theorem Resting.roundRobin (resting : Resting s) : Resting s.roundRobin.1 :=
  resting.frame (roundRobin_frame s).1 rfl rfl rfl

theorem Resting.findNextThread (resting : Resting s) (t : Thread) :
    Resting (s.findNextThread t).1 ∧ (s.findNextThread t).1.running = s.running := by
  rw [State.findNextThread]
  split
  · exact ⟨resting, rfl⟩
  · exact ⟨resting.roundRobin, (roundRobin_frame s).2⟩

/-! ### Another thread goes on -/

theorem Resting.release (resting : Resting s) (t : Thread) : Resting (s.release t) :=
  resting.frame rfl rfl rfl rfl

theorem Resting.block (resting : Resting s) (running : s.running = some t) (other : t ≠ idle)
    (detail : BlockingDetail) {next : Pc} (plain : next.builds = none) : Resting (s.block t detail next) := by
  obtain ⟨found, same⟩ := resting.findNextThread t
  rw [State.block]
  rcases eq : s.findNextThread t with ⟨s', u⟩
  rw [eq] at found same
  cases u with
  | none => exact resting
  | some u =>
      refine ((found.release t).switchContext u (some detail) fun self => ?_).goto (by rw [plain]; simp)
      have runs : s'.running = some idle := self
      rw [same, running, Option.some.injEq] at runs
      exact absurd runs other

theorem Resting.leave (resting : Resting s) (running : s.running = some t) (other : t ≠ idle)
    (u : Thread) : Resting (s.leave t u) := by
  have gone : Resting ((s.release t).goto t .user) := (resting.release t).goto (by simp [Pc.builds])
  refine gone.switchContext u none fun self => ?_
  have runs : s.running = some idle := self
  rw [running, Option.some.injEq] at runs
  exact absurd runs other

theorem Resting.vanish (resting : Resting s) (inv : Inv s) (one : One s t) (other : t ≠ idle)
    (alive parent : Nat) : Resting (s.vanish t alive parent) := by
  rw [State.vanish]
  split_ifs
  · obtain ⟨inv', one', -⟩ := inv.wake one parent
    have running := inv'.rows.running one'
    have frame := roundRobin_frame (s.wake parent)
    have woken := (resting.wake parent).roundRobin
    rcases eq : (s.wake parent).roundRobin with ⟨s', u⟩
    rw [eq] at frame woken
    cases u with
    | none => exact resting
    | some u => exact woken.leave (frame.2.trans running) other u
  · obtain ⟨found, same⟩ := resting.findNextThread t
    have running := inv.rows.running one
    rcases eq : s.findNextThread t with ⟨s', u⟩
    rw [eq] at found same
    cases u with
    | none => exact (resting.release t).goto (by simp [Pc.builds])
    | some u => exact found.leave (same.trans running) other u

/-- A thread of another process makes a TCB, for a process that is not the root. -/
theorem Resting.make (resting : Resting s) (root : p ≠ idle) (builds : pc.builds = some s.made) :
    Resting ((s.make t p d l).goto t pc) := by
  have ne : s.made ≠ idle := Nat.ne_of_gt resting.made
  have old : ∀ u, u ≠ s.made → (s.make t p d l).tcb u = s.tcb u := fun u other =>
    Function.update_of_ne other ..
  have base : Resting (s.make t p d l) := by
    refine ⟨Nat.lt_succ_of_lt resting.made, resting.kept, resting.built, ?_, ?_, fun u made other => ?_⟩
    · rw [old idle ne.symm]
      exact resting.state
    · rw [old idle ne.symm]
      exact resting.pcb
    · by_cases new : u = s.made
      · have self : (s.make t p d l).tcb s.made =
            { s.tcb t with pcb := p, tid := d.tid, state := .ready } := Function.update_self ..
        rw [new, self]
        exact root
      · rw [old u new]
        exact resting.others u (Nat.lt_of_le_of_ne (Nat.le_of_lt_succ made) new) other
  refine base.goto ?_
  rw [builds]
  simpa using ne

theorem Resting.unmake (resting : Resting s) (builds : (s.pc t).builds = some x) (none : pc.builds = none) :
    Resting ((s.unmake p x).goto t pc) := by
  have other : idle ≠ x := by
    rintro rfl
    exact resting.built ⟨t, builds⟩
  have base : Resting (s.unmake p x) :=
    resting.frame rfl rfl (Function.update_of_ne other _ s.tcbFreed) rfl
  exact base.goto (by rw [none]; simp)

theorem Resting.popChild (resting : Resting (s.goto t pc)) (p : Nat) :
    Resting ((s.popChild p).goto t pc) := by
  rw [State.popChild]
  split
  · exact resting
  · exact resting.frame rfl rfl rfl rfl

theorem Resting.region (resting : Resting s) (inv : Inv s) (one : One s t) (other : t ≠ idle) {g : Region}
    (place : s.pc t = .locked g) : Resting (s.region t d g) := by
  have running := inv.rows.running one
  have root : (s.tcb t).pcb ≠ idle := resting.others t one.listed.1.made other
  cases g with
  | deschedule =>
      rw [State.region]
      split_ifs
      · exact (resting.release t).goto (by simp [Pc.builds])
      · exact resting.block running other _ rfl
  | sleep ticks => exact resting.block running other _ rfl
  | wait =>
      rw [State.region, State.wait]
      split_ifs
      · exact (resting.release t).goto (by simp [Pc.builds])
      · split
        · rename_i c _
          split_ifs
          · exact resting
          · have base : Resting ((s.detach (s.tcb t).pcb c).release t) := resting.frame rfl rfl rfl rfl
            exact base.goto (by simp [Pc.builds])
        · exact resting.block running other _ rfl
  | vanish => exact resting.goto (by simp [Pc.builds])
  | taskVanish =>
      refine (resting.terminateAll t fun mem => root ?_).goto (by simp [Pc.builds])
      rw [← (inv.regions.tcbs _ idle mem).2.2]
      exact resting.pcb
  | enterReadline =>
      rw [State.region]
      split_ifs
      · exact resting.block running other _ rfl
      · have base : Resting { s with inputLocked := true } := resting.frame rfl rfl rfl rfl
        exact base.goto (by simp [Pc.builds])
  | readChar =>
      rw [State.region]
      split_ifs
      · exact resting.goto (by simp [Pc.builds])
      · exact resting.block running other _ rfl
  | threadFork =>
      rw [State.region]
      split_ifs
      · exact resting.make root rfl
      · exact resting.goto (by simp [Pc.builds])
  | fork =>
      rw [State.region]
      split_ifs <;> exact resting.goto (by simp [Pc.builds])

theorem Resting.advance (resting : Resting s) (inv : Inv s) (one : One s t) (other : t ≠ idle)
    (d : Data) : Resting (s.advance t d) := by
  have running := inv.rows.running one
  cases place : s.pc t with
  | user => rwa [State.advance, place]
  | lock g =>
      rw [State.advance, place]
      dsimp only
      split_ifs
      · have base : Resting (s.acquire t) := resting.frame rfl rfl rfl rfl
        exact base.goto (by simp [Pc.builds])
      · exact resting
  | locked g =>
      have steps := resting.region (d := d) inv one other place
      rwa [State.advance, place]
  | unlock next =>
      obtain ⟨plain, -⟩ := inv.regions.unlocks t next place
      have placed : Placed s t next := .plain plain
      rw [State.advance, place]
      exact (resting.release t).goto (by rw [placed.builds]; simp)
  | made x =>
      have builds : (s.pc t).builds = some x := by rw [place]; rfl
      rw [State.advance, place]
      dsimp only
      split_ifs
      · have base : Resting { s with live := s.live.enqueue s.made x } :=
          resting.frame Rings.enqueue_tcb rfl rfl rfl
        exact base.goto (by simp [Pc.builds])
      · exact resting.unmake builds rfl
  | forks =>
      rw [State.advance, place]
      dsimp only
      split_ifs
      · have base : Resting (s.pushChild (s.tcb t).pcb) := resting.frame rfl rfl rfl rfl
        exact base.goto (by simp [Pc.builds])
      · exact resting.goto (by simp [Pc.builds])
  | pushed q =>
      rw [State.advance, place]
      dsimp only
      split
      · exact resting
      · exact resting.goto (by simp [Pc.builds])
  | copying c =>
      rw [State.advance, place]
      dsimp only
      split_ifs
      · refine resting.make ?_ rfl
        rintro rfl
        exact (inv.regions.children t idle (by rw [place]; rfl)).empty idle resting.listed.1 resting.pcb
      · exact (resting.goto (by simp [Pc.builds])).popChild _
  | forked c x =>
      have builds : (s.pc t).builds = some x := by rw [place]; rfl
      rw [State.advance, place]
      dsimp only
      split_ifs
      · have base : Resting { s with live := s.live.append x } :=
          resting.frame Rings.append_tcb rfl rfl rfl
        exact base.goto (by simp [Pc.builds])
      · exact (resting.unmake builds rfl).popChild _
  | vanishing alive =>
      rw [State.advance, place]
      exact resting.vanish inv one other _ _
  | blocked =>
      have base : Resting { s with inputLocked := true } := resting.frame rfl rfl rfl rfl
      rw [State.advance, place]
      exact base.goto (by simp [Pc.builds])
  | read =>
      rw [State.advance, place]
      dsimp only
      split_ifs
      · have base : Resting { s with inputLocked := false } := resting.frame rfl rfl rfl rfl
        have gone : Resting (State.goto { s with inputLocked := false } t .user) :=
          base.goto (by simp [Pc.builds])
        rw [State.finish]
        split
        · exact gone
        · exact gone.switchContext _ _ fun _ => rfl
      · exact resting.goto (by simp [Pc.builds])
  | freeTcbs l =>
      have freed := inv.regions.freed t l place
      cases l with
      | nil =>
          rw [State.advance, place]
          exact resting.goto (by simp [Pc.builds])
      | cons x rest =>
          have ne : idle ≠ x := by
            rintro rfl
            exact resting.listed.2 (freed idle List.mem_cons_self).1
          have base : Resting (s.freeTcb x) :=
            resting.frame rfl rfl (Function.update_of_ne ne _ s.tcbFreed) rfl
          rw [State.advance, place]
          exact base.goto (by simp [Pc.builds])
  | drain =>
      have base : Resting { s with drain := Drain.step s.drain (.drain t) } :=
        resting.frame rfl rfl rfl rfl
      rw [State.advance, place]
      dsimp only
      split_ifs
      · exact base.goto (by simp [Pc.builds])
      · exact base
  | wakes =>
      rw [State.advance, place]
      exact ((resting.wake _).wake init).goto (by simp [Pc.builds])

/-! ### Every step -/

theorem Resting.giveWay (resting : Resting s) :
    Resting (match s.roundRobin with
      | (_, none) => s
      | (s', some u) => s'.switchContext u .ready none) := by
  have turned := resting.roundRobin
  rcases eq : s.roundRobin with ⟨s', u⟩
  rw [eq] at turned
  cases u with
  | none => exact resting
  | some u => exact turned.switchContext u none fun _ => rfl

theorem Resting.handleTimer (resting : Resting s) : Resting s.handleTimer := by
  have base : Resting { s with tickCount := s.tickCount + 1 } := resting.frame rfl rfl rfl rfl
  rw [State.handleTimer]
  generalize { s with tickCount := s.tickCount + 1 } = s' at base ⊢
  split
  · exact base.switchContext _ _ fun _ => rfl
  · exact base.giveWay

theorem Resting.handleKeyboard (resting : Resting s) : Resting s.handleKeyboard := by
  rw [State.handleKeyboard]
  split
  · exact resting
  · split_ifs
    · exact resting.switchContext _ _ fun _ => rfl
    · exact resting

theorem Resting.event (resting : Resting s) (inv : Inv s) (one : One s t) (other : t ≠ idle) (i : Input) :
    Resting (s.event t i) := by
  cases i with
  | advance d => exact resting.advance inv one other d
  | call g =>
      rw [State.event]
      split_ifs
      · exact resting.goto (by simp [Pc.builds])
      · exact resting
  | yield tid =>
      rw [State.event, State.yield]
      split_ifs
      · exact resting.giveWay
      · split
        · exact resting
        · exact resting.switchContext _ _ fun _ => rfl
  | makeRunnable tid =>
      rw [State.event]
      split_ifs
      · rw [State.makeRunnable]
        split
        · exact resting
        · exact resting.alter none fun _ => .inl rfl
      · exact resting
  | fault handled =>
      rw [State.event]
      by_cases faults : s.faults t = true
      · rw [if_pos faults]
        exact resting.goto (by cases handled <;> simp [Pc.builds])
      · rwa [if_neg faults]
  | timer => exact resting.handleTimer
  | keyboard => exact resting.handleKeyboard

theorem Resting.step (resting : Resting s) (inv : Inv s) (idles : Idles s i) : Resting (step s i) := by
  rw [Dispatch.step]
  cases running : s.running with
  | none => exact resting
  | some t =>
      have one := inv.one running
      by_cases root : t = idle
      · rcases idles (running.trans (congrArg some root)) with rfl | rfl
        · dsimp only
          split_ifs
          · exact resting
          · exact resting.handleTimer
        · dsimp only
          split_ifs
          · exact resting
          · exact resting.handleKeyboard
      · cases i with
        | advance d => exact resting.advance inv one root d
        | _ =>
            dsimp only
            split_ifs
            · exact resting
            · exact resting.event inv one root _

theorem resting_boot : Resting boot := by
  refine ⟨by decide, rfl, ?_, .inr rfl, rfl, fun t _ other => other⟩
  rintro ⟨t, builds⟩
  cases builds

/-- While another thread runs, there is one that can take its place. -/
theorem Resting.finds (resting : Resting s) (inv : Inv s) (one : One s t) (other : t ≠ idle) :
    s.roundRobin.2 ≠ none ∧ (s.findNextThread t).2 ≠ none := by
  have ready : (s.tcb idle).state = .ready := by
    refine resting.state.resolve_right fun runs => other ?_
    exact (one.only idle resting.listed runs).symm
  have found : s.roundRobin.2 ≠ none := by
    have mem := (inv.rows.mem_nodes (u := idle) (.state .ready)).mpr
      ⟨resting.listed, by simp [Tcb.listIdx, ready]⟩
    rw [Rings.nodes] at mem
    rw [State.roundRobin, Rings.roundRobin]
    cases head : s.live.threadLists (.state .ready) with
    | none =>
        rw [head] at mem
        cases mem
    | some h =>
        dsimp only
        split <;> simp
  refine ⟨found, ?_⟩
  rw [State.findNextThread]
  split
  · simp
  · exact found

theorem scheduler_finds_along (is : List Input) (orderly : Run.StepsMeet step Orderly boot is)
    (idles : Run.StepsMeet step Idles boot is) :
    Run.Along step (fun s => ∃ t, s.running = some t ∧
      (t ≠ idle → s.roundRobin.2 ≠ none ∧ (s.findNextThread t).2 ≠ none)) boot is := by
  refine Run.along_of_stepsMeet (I := fun s => Inv s ∧ Resting s) (fun s both => ?_)
    (fun s i both meets => ⟨both.1.step meets.1, both.2.step both.1 meets.2⟩) ⟨inv_boot, resting_boot⟩
    (orderly.and idles)
  obtain ⟨inv, resting⟩ := both
  obtain ⟨t, one⟩ := inv.running
  exact ⟨t, inv.rows.running one, resting.finds inv one⟩

theorem scheduler_finds_along_fork : Run.Along step (fun s => ∃ t, s.running = some t ∧
    (t ≠ idle → s.roundRobin.2 ≠ none ∧ (s.findNextThread t).2 ≠ none)) boot forkRun := by
  have checked : Run.StepsMeet step (fun s i => s.check i = true) boot forkRun := by decide +kernel
  refine scheduler_finds_along forkRun (checked.mono fun s i => orderly_of_check) ?_
  have tests : Run.StepsMeet step (fun s i => s.running ≠ some idle ∨ i = .timer) boot forkRun := by
    decide +kernel
  exact tests.mono fun s i either running => .inl (either.resolve_left fun other => other running)

end OsKernel.Dispatch
