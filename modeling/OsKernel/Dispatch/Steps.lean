/-
Every step keeps the invariant, under the conditions of `Orderly`.

The rules are one for each way in which a thread goes on: with the lists as they are
(`Inv.quiet`), with a thread that it has set up (`Inv.setUp`), with one that it makes or gives
up (`Inv.make`, `Inv.unmake`), or by a switch (`switch_keeps`, `exit_keeps`). Then each part of
a handler is a case of one of them.
-/

import OsKernel.Dispatch.Ends
import OsKernel.Dispatch.Readers
import OsKernel.Dispatch.Regions

namespace OsKernel.Dispatch

open OsKernel.Sched

variable {s s' : State} {t u r x : Thread} {p c : Nat} {pc : Pc} {d : Data} {l : List Thread}
variable {state : ThreadState} {detail : Option BlockingDetail}

/-! ### The lists as they are -/

theorem Rows.congr (rows : Rows s) (live : s'.live = s.live) (listed : ∀ u, s'.Listed u ↔ s.Listed u) :
    Rows s' := by
  obtain ⟨k, shows, lined⟩ := rows
  exact ⟨k, live ▸ shows, lined.congr listed⟩

theorem One.congr (one : One s t) (tcb : s'.tcb = s.tcb) (listed : ∀ u, s'.Listed u ↔ s.Listed u) :
    One s' t where
  listed := (listed t).mpr one.listed
  running := by rw [tcb]; exact one.running
  only u here runs := by
    rw [tcb] at runs
    exact one.only u ((listed u).mp here) runs

theorem Inv.quiet (inv : Inv s) (live : s'.live = s.live) (drain : s'.drain = s.drain)
    (made : s'.made = s.made) (address : s'.address = s.address)
    (kept : ∀ u, s'.tcbFreed u = false → s.tcbFreed u = false)
    (listed : ∀ u, s'.Listed u ↔ s.Listed u) (regions : Regions s') (readers : Readers s') : Inv s' := by
  have tcb : s'.tcb = s.tcb := by
    funext u
    rw [State.tcb, State.tcb, live]
  obtain ⟨r, one⟩ := inv.running
  exact ⟨inv.rows.congr live listed, ⟨r, one.congr tcb listed⟩, regions, readers,
    inv.ends.frame drain made address kept fun u => by rw [tcb]⟩

/-- What decides who counts. -/
theorem listed_frame (tcb : s'.tcb = s.tcb) (made : s'.made = s.made) (freed : s'.tcbFreed = s.tcbFreed)
    (builds : ∀ u, (s'.pc u).builds = (s.pc u).builds) (u : Thread) : s'.Listed u ↔ s.Listed u := by
  refine listed_congr (fun v => ?_) (fun v => by rw [tcb])
  have building : s'.Building v ↔ s.Building v := by
    simp only [State.Building, builds]
  exact ⟨fun h => ⟨made ▸ h.1, freed ▸ h.2, fun b => h.3 (building.mpr b)⟩,
    fun h => ⟨made ▸ h.1, freed ▸ h.2, fun b => h.3 (building.mp b)⟩⟩

theorem listed_goto (builds : pc.builds = (s.pc t).builds) (u : Thread) :
    (s.goto t pc).Listed u ↔ s.Listed u := by
  have same : ∀ v, ((s.goto t pc).pc v).builds = (s.pc v).builds := by
    intro v
    by_cases self : v = t
    · subst self
      rw [goto_pc_self, builds]
    · rw [goto_pc_other self]
  have tcb : (s.goto t pc).tcb = s.tcb := rfl
  exact listed_frame tcb rfl rfl same u

/-- The thread that runs goes on. -/
theorem Readers.go (readers : Readers s) (one : One s t) (builds : pc.builds = (s.pc t).builds)
    (inside : pc.inside = true → (s.pc t).inside = true) (acts : pc ≠ .blocked) :
    Readers (s.goto t pc) := by
  have runs := listIdx_running.mpr one.running
  refine readers.step (t := t) (fun u => goto_pc_other) (by rwa [goto_pc_self]) id (fun free u => ?_)
    (fun _ idx => ?_) (fun _ place => absurd (goto_pc_self.symm.trans place) acts)
    fun u _ listed => .inl ⟨(listed_goto builds u).mp listed, rfl⟩
  · have nobody := readers.free free
    by_cases self : u = t
    · subst self
      rw [goto_pc_self]
      by_contra within
      have here := inside (by simpa using within)
      rw [nobody u] at here
      cases here
    · rw [goto_pc_other self]
      exact nobody u
  · change (s.tcb t).listIdx = _ at idx
    rw [runs] at idx
    cases idx

theorem Inv.goto (inv : Inv s) (one : One s t) (idle : (s.pc t).builds = none) (placed : Placed s t pc)
    (inside : pc.inside = true → (s.pc t).inside = true) (acts : pc ≠ .blocked) :
    Inv (s.goto t pc) := by
  have builds := placed.builds.trans idle.symm
  exact inv.quiet rfl rfl rfl rfl (fun _ => id) (listed_goto builds)
    (inv.regions.go one.listed.1 idle placed) (inv.readers.go one builds inside acts)

/-- The tables of the processes change. -/
theorem Readers.congr (readers : Readers s) (pc : s'.pc = s.pc) (locked : s'.inputLocked = s.inputLocked)
    (tcb : s'.tcb = s.tcb) (listed : ∀ u, s'.Listed u → s.Listed u) : Readers s' where
  alone := by rw [pc]; exact readers.alone
  free := by rw [pc, locked]; exact readers.free
  first u here := by
    rw [pc, tcb]
    exact readers.first u (listed u here)
  blocked u here := by
    rw [pc, tcb, locked]
    exact readers.blocked u (listed u here)

theorem Inv.release (inv : Inv s) (held : s.owner (s.tcb t).pcb = some t)
    (left : (s.pc t).holds = false) : Inv (s.release t) := by
  have listed : ∀ u, (s.release t).Listed u ↔ s.Listed u := listed_frame rfl rfl rfl fun _ => rfl
  exact inv.quiet rfl rfl rfl rfl (fun _ => id) listed (inv.regions.release held left)
    (inv.readers.congr rfl rfl rfl fun u => (listed u).mp)

theorem Inv.acquire (inv : Inv s) (free : s.owner (s.tcb t).pcb = none) : Inv (s.acquire t) := by
  have listed : ∀ u, (s.acquire t).Listed u ↔ s.Listed u := listed_frame rfl rfl rfl fun _ => rfl
  exact inv.quiet rfl rfl rfl rfl (fun _ => id) listed (inv.regions.acquire free)
    (inv.readers.congr rfl rfl rfl fun u => (listed u).mp)

/-- The PCB of a process is freed that has no thread. -/
theorem Inv.freePcb (inv : Inv s) (known : c < s.procs)
    (empty : ∀ u ∈ s.tcbList c, (s.tcb u).state = .terminated)
    (apart : ∀ u, (s.pc u).child ≠ some c) : Inv (s.freePcb c) := by
  have listed : ∀ u, (s.freePcb c).Listed u ↔ s.Listed u := listed_frame rfl rfl rfl fun _ => rfl
  exact inv.quiet rfl rfl rfl rfl (fun _ => id) listed (inv.regions.freePcb known empty apart)
    (inv.readers.congr rfl rfl rfl fun u => (listed u).mp)

theorem Inv.grown (inv : Inv s) {procs : Nat} (more : s.procs ≤ procs) (children : Nat → List Nat) :
    Inv { s with procs := procs, children := children } := by
  have listed : ∀ u, State.Listed { s with procs := procs, children := children } u ↔ s.Listed u :=
    listed_frame rfl rfl rfl fun _ => rfl
  exact inv.quiet rfl rfl rfl rfl (fun _ => id) listed (inv.regions.grown more children)
    (inv.readers.congr rfl rfl rfl fun u => (listed u).mp)

/-- TCBs of terminated threads, or of threads that never ran, are freed. -/
theorem listed_freed (tcb : s'.tcb = s.tcb) (made : s'.made = s.made)
    (freed : s'.tcbFreed = Function.update s.tcbFreed x true) (out : ¬ s.Listed x)
    (builds : ∀ v u, u ≠ x → ((s'.pc v).builds = some u ↔ (s.pc v).builds = some u)) (u : Thread) :
    s'.Listed u ↔ s.Listed u := by
  by_cases self : u = x
  · subst self
    refine iff_of_false (fun listed => ?_) out
    have kept := listed.1.kept
    rw [freed, Function.update_self] at kept
    cases kept
  · have building : s'.Building u ↔ s.Building u := exists_congr fun v => builds v u self
    have kept : s'.tcbFreed u = s.tcbFreed u := by rw [freed, Function.update_of_ne self]
    rw [State.Listed, State.Listed, tcb]
    refine and_congr_left fun _ => ?_
    exact ⟨fun h => ⟨made ▸ h.1, kept ▸ h.2, fun b => h.3 (building.mpr b)⟩,
      fun h => ⟨made ▸ h.1, kept ▸ h.2, fun b => h.3 (building.mp b)⟩⟩

theorem Inv.freeTcb (inv : Inv s) (ended : (s.tcb x).state = .terminated) (out : ∀ p, x ∉ s.tcbList p) :
    Inv (s.freeTcb x) := by
  have old : x < s.made := by
    by_contra late
    exact (inv.regions.fresh x (Nat.le_of_not_lt late)).2.1 ended
  have tcb : (s.freeTcb x).tcb = s.tcb := rfl
  have listed : ∀ u, (s.freeTcb x).Listed u ↔ s.Listed u :=
    listed_freed tcb rfl rfl (fun listed => listed.2 ended) fun _ _ _ => Iff.rfl
  exact inv.quiet rfl rfl rfl rfl (fun _ => kept_of_freeTcb) listed (inv.regions.free old out)
    (inv.readers.congr rfl rfl rfl fun u => (listed u).mp)

/-! ### New threads -/

/-- The thread that runs has set up `x`, and puts it into the `READY` list. -/
theorem Inv.setUp (inv : Inv s) (one : One s t) (builds : (s.pc t).builds = some x)
    (placed : Placed s t pc) (outside : pc.inside = false) (acts : pc ≠ .blocked)
    (kept : s.tcbFreed x = false)
    (apart : ∀ u c, u ≠ t → (s.pc u).child = some c → (s.tcb x).pcb ≠ c) {live : Rings}
    (tcb : live.tcb = s.live.tcb)
    (rows : ∀ k, s.live.Shows k → Lined k s.Listed → ¬ s.Listed x → (k.tcb x).state = .ready →
      ∃ k', live.Shows k' ∧ Lined k' fun u => s.Listed u ∨ u = x) :
    Inv (State.goto { s with live := live } t pc) := by
  obtain ⟨made, ready, user⟩ := inv.regions.builders t x builds
  have new : ¬ s.Listed x := not_listed_of_builds builds
  generalize next : State.goto { s with live := live } t pc = s'
  have here : s'.pc t = pc := by rw [← next]; exact goto_pc_self
  have elsewhere : ∀ u, u ≠ t → s'.pc u = s.pc u := by
    intro u other
    rw [← next]
    exact goto_pc_other other
  have tcbs : s'.tcb = s.tcb := by rw [← next]; exact tcb
  have moves : Moves (s.goto t pc) s' := by
    rw [← next]
    exact ⟨rfl, rfl, rfl, rfl, rfl, rfl, rfl, rfl, rfl, rfl, fun u => congrArg Tcb.pcb (congrFun tcb u),
      fun u _ => congrFun tcb u⟩
  have listed : ∀ u, s'.Listed u ↔ s.Listed u ∨ u = x := by
    intro u
    rw [State.Listed, moves.counts, tcbs]
    constructor
    · rintro ⟨counts, live⟩
      rcases counts_of_goto counts with old | own
      · exact .inl ⟨old, live⟩
      · rw [builds, Option.some.injEq] at own
        exact .inr own.symm
    · have quiet : ∀ v, (s.goto t pc).Building v → ∃ w, w ≠ t ∧ (s.pc w).builds = some v := by
        rintro v ⟨w, sets⟩
        by_cases self : w = t
        · rw [self, goto_pc_self, placed.builds] at sets
          cases sets
        · exact ⟨w, self, by rwa [goto_pc_other self] at sets⟩
      rintro (old | rfl)
      · refine ⟨⟨old.1.made, old.1.kept, fun building => ?_⟩, old.2⟩
        obtain ⟨w, -, sets⟩ := quiet u building
        exact old.1.built ⟨w, sets⟩
      · refine ⟨⟨made, kept, fun building => ?_⟩, by simp [ready]⟩
        obtain ⟨w, other, sets⟩ := quiet u building
        exact other (inv.regions.builder w t u sets builds)
  have apart' : ∀ y, (s.pc t).builds = some y → ∀ u c, u ≠ t → (s.pc u).child = some c →
      (s.tcb y).pcb ≠ c := by
    intro y own u c other child
    rw [builds, Option.some.injEq] at own
    exact own ▸ apart u c other child
  refine ⟨?_, ⟨t, (listed t).mpr (.inl one.listed), by rw [tcbs]; exact one.running, fun u lu runs => ?_⟩,
    (inv.regions.goto one.listed.1 placed apart').moves moves, ?_, ?_⟩
  · obtain ⟨k, shows, lined⟩ := inv.rows
    have readyK : (k.tcb x).state = .ready := by rw [← shows.tcb]; exact ready
    obtain ⟨k', shows', lined'⟩ := rows k shows lined new readyK
    rw [← next] at listed ⊢
    exact ⟨k', shows', lined'.congr listed⟩
  · rw [tcbs] at runs
    rcases (listed u).mp lu with old | rfl
    · exact one.only u old runs
    · rw [ready] at runs
      cases runs
  · have locked : s'.inputLocked = s.inputLocked := by rw [← next]; rfl
    refine inv.readers.step (t := t) elsewhere (by rw [here, outside]; simp) (by rw [locked]; exact id)
      (fun free u => ?_) (fun _ idx => ?_) (fun _ place => absurd (here.symm.trans place) acts)
      fun u other lu => ?_
    · by_cases self : u = t
      · rw [self, here, outside]
      · rw [elsewhere u self]
        exact inv.readers.free (locked ▸ free) u
    · rw [tcbs, listIdx_running.mpr one.running] at idx
      cases idx
    · rcases (listed u).mp lu with old | rfl
      · exact .inl ⟨old, by rw [tcbs]⟩
      · right
        rw [tcbs, elsewhere u other, user]
        simp [Tcb.listIdx, ready]
  · refine inv.ends.frame (by rw [← next]; rfl) (by rw [← next]; rfl) (by rw [← next]; rfl) ?_
      fun u => by rw [tcbs]
    rw [← next]
    exact fun _ => id

/-- The thread that runs makes a TCB. -/
theorem Inv.make (inv : Inv s) (one : One s t) (idle : (s.pc t).builds = none)
    (builds : pc.builds = some s.made) (outside : pc.inside = false) (acts : pc ≠ .blocked)
    (room : s.room d.address = true) (away : d.address ∉ s.drain.visited.map s.address)
    (regions : Regions ((s.make t p d l).goto t pc)) : Inv ((s.make t p d l).goto t pc) := by
  have ends : Ends (s.make t p d l) := inv.ends.make inv.regions room away
  have made := makes s t p d l pc
  have live : ((s.make t p d l).goto t pc).live = { s.live with
    tcb := Function.update s.live.tcb s.made
      { s.tcb t with pcb := p, tid := d.tid, state := .ready } } := rfl
  have ends' : Ends ((s.make t p d l).goto t pc) :=
    ends.frame rfl rfl rfl (fun _ => id) fun _ => Iff.rfl
  have locked : ((s.make t p d l).goto t pc).inputLocked = s.inputLocked := rfl
  generalize (s.make t p d l).goto t pc = s' at made live ends' locked regions ⊢
  have new : ¬ s.Listed s.made := fun listed => Nat.lt_irrefl _ listed.1.made
  have tcb : ∀ u, s.Listed u → s'.tcb u = s.tcb u :=
    fun u listed => made.old u (Nat.ne_of_lt listed.1.made)
  have listed : ∀ u, s'.Listed u ↔ s.Listed u := by
    intro u
    constructor
    · rintro ⟨counts, goesOn⟩
      have old := made.counts idle builds counts
      rw [made.old u (Nat.ne_of_lt old.made)] at goesOn
      exact ⟨old, goesOn⟩
    · intro old
      refine ⟨⟨?_, made.freed ▸ old.1.kept, ?_⟩, tcb u old ▸ old.2⟩
      · rw [made.made]
        exact Nat.lt_succ_of_lt old.1.made
      · rintro ⟨v, sets⟩
        by_cases self : v = t
        · rw [self, made.here, builds, Option.some.injEq] at sets
          exact Nat.ne_of_gt old.1.made sets
        · rw [made.elsewhere v self] at sets
          exact old.1.built ⟨v, sets⟩
  refine ⟨?_, ⟨t, (listed t).mpr one.listed, ?_, fun u lu runs => ?_⟩, regions, ?_, ends'⟩
  · obtain ⟨k, shows, lined⟩ := inv.rows
    refine ⟨_, ?_, (lined.update new { s.tcb t with pcb := p, tid := d.tid, state := .ready }).congr listed⟩
    rw [live]
    exact ⟨by rw [shows.tcb], shows.ring, shows.head⟩
  · rw [tcb t one.listed]
    exact one.running
  · rw [tcb u ((listed u).mp lu)] at runs
    exact one.only u ((listed u).mp lu) runs
  · have old : ∀ u, s'.Listed u → s.Listed u ∧ s'.tcb u = s.tcb u := fun u lu =>
      ⟨(listed u).mp lu, tcb u ((listed u).mp lu)⟩
    refine inv.readers.step (t := t) made.elsewhere (by rw [made.here, outside]; simp)
      (by rw [locked]; exact id) (fun free u => ?_) (fun _ idx => ?_)
      (fun _ place => absurd (made.here.symm.trans place) acts) fun u _ lu => .inl (old u lu)
    · by_cases self : u = t
      · rw [self, made.here, outside]
      · rw [made.elsewhere u self]
        exact inv.readers.free (locked ▸ free) u
    · rw [tcb t one.listed, listIdx_running.mpr one.running] at idx
      cases idx

/-- The thread that runs gives up the TCB that it set up. -/
theorem Inv.unmake (inv : Inv s) (one : One s t) (builds : (s.pc t).builds = some x)
    (none : pc.builds = none) (outside : pc.inside = false) (acts : pc ≠ .blocked)
    (regions : Regions ((s.unmake p x).goto t pc)) : Inv ((s.unmake p x).goto t pc) := by
  have tcb : ((s.unmake p x).goto t pc).tcb = s.tcb := rfl
  have sets : ∀ v u, u ≠ x →
      ((((s.unmake p x).goto t pc).pc v).builds = some u ↔ (s.pc v).builds = some u) := by
    intro v u other
    by_cases self : v = t
    · subst self
      rw [goto_pc_self, none, builds]
      simp [Ne.symm other]
    · rw [goto_pc_other self]
      rfl
  have listed := listed_freed tcb rfl rfl (not_listed_of_builds builds) sets
  refine inv.quiet rfl rfl rfl rfl (fun _ => kept_of_freeTcb) listed regions ?_
  refine inv.readers.step (t := t) (fun u other => goto_pc_other other)
    (by rw [goto_pc_self, outside]; simp) id (fun free u => ?_) (fun _ idx => ?_)
    (fun _ place => absurd (goto_pc_self.symm.trans place) acts)
    fun u _ lu => .inl ⟨(listed u).mp lu, rfl⟩
  · by_cases self : u = t
    · rw [self, goto_pc_self, outside]
    · rw [goto_pc_other self]
      exact inv.readers.free free u
  · change (s.tcb t).listIdx = _ at idx
    rw [listIdx_running.mpr one.running] at idx
    cases idx

/-! ### Switches -/

theorem ended_of_moves (moves : Moves s s') (goesOn : ∀ u, s.Listed u → (s'.tcb u).state ≠ .terminated)
    (u : Thread) : (s'.tcb u).state = .terminated ↔ (s.tcb u).state = .terminated := by
  by_cases listed : s.Listed u
  · exact iff_of_false (goesOn u listed) listed.2
  · rw [moves.others u listed]

/-- The state of a thread after a switch. -/
theorem Switched.outcome (done : Switched s s' r u state detail) (v : Thread) :
    v = u ∧ (s'.tcb v).state = .running ∨ v = r ∧ (s'.tcb v).state = state ∨
      v ≠ u ∧ v ≠ r ∧ s'.tcb v = s.tcb v := by
  by_cases target : v = u
  · subst target
    exact .inl ⟨rfl, done.one.running⟩
  · by_cases self : v = r
    · refine .inr (.inl ⟨self, ?_⟩)
      rw [done.tcb, Function.update_of_ne target, self, Function.update_self]
      rfl
    · refine .inr (.inr ⟨target, self, ?_⟩)
      rw [done.tcb, Function.update_of_ne target, Function.update_of_ne self]

/-- The thread that runs becomes runnable or blocks. -/
theorem switch_keeps (rows : Rows s) (one : One s r) (readers : Readers s) (ends : Ends s)
    (listed : s.Listed u) (waits : (s.tcb u).state ≠ .running)
    (target : state = .ready ∨ state = .waiting ∧ detail ≠ none) (acts : s.pc r ≠ .blocked)
    (first : state = .waiting → detail = some (.readline true) → (s.pc r).inside = true)
    (turn : s.pc u = .blocked → s.inputLocked = false) :
    Switched s (s.switchContext u state detail) r u state detail ∧
      Readers (s.switchContext u state detail) ∧ Ends (s.switchContext u state detail) := by
  have given : state = .waiting → detail ≠ none := by
    rintro rfl
    rcases target with impossible | ⟨-, given⟩
    · cases impossible
    · exact given
  have goesOn : state ≠ .new ∧ state ≠ .terminated ∧ state ≠ .running := by
    rcases target with rfl | ⟨rfl, -⟩ <;> simp
  have alone : (altered (s.tcb r) state detail).listIdx = .reason .readline →
      (altered (s.tcb r) state detail).detail.firstReader = true →
      ∀ v, s.Listed v → (s.tcb v).listIdx = .reason .readline → (s.tcb v).detail.firstReader = false := by
    intro idx isFirst v lv idxV
    obtain ⟨b, rfl, rfl⟩ := altered_readline idx given
    obtain rfl : b = true := isFirst
    by_contra other
    obtain rfl := readers.alone v r (readers.first v lv idxV (by simpa using other)) (first rfl rfl)
    rw [listIdx_running.mpr one.running] at idxV
    cases idxV
  obtain ⟨done, drain⟩ := rows.switch one listed waits goesOn.1 goesOn.2.1 goesOn.2.2 given alone
  refine ⟨done, readers.switched done acts given first turn, ?_⟩
  refine ends.frame drain done.moves.made done.moves.address (by rw [done.moves.tcbFreed]; exact fun _ => id)
    (ended_of_moves done.moves fun v lv => ?_)
  rcases done.outcome v with ⟨-, runs⟩ | ⟨-, there⟩ | ⟨-, -, same⟩
  · rw [runs]
    simp
  · rw [there]
    exact goesOn.2.1
  · rw [same]
    exact lv.2

/-- The thread that runs ends. -/
theorem exit_keeps (rows : Rows s) (one : One s r) (readers : Readers s) (ends : Ends s)
    (listed : s.Listed u) (waits : (s.tcb u).state ≠ .running) (acts : s.pc r ≠ .blocked)
    (turn : s.pc u = .blocked → s.inputLocked = false)
    (apart : Drain.Apart s.drain (.terminate r)) :
    Switched s (s.switchContext u .terminated none) r u .terminated none ∧
      Readers (s.switchContext u .terminated none) ∧ Ends (s.switchContext u .terminated none) := by
  obtain ⟨done, drain⟩ := rows.exit one listed waits
  refine ⟨done, readers.switched done acts (by simp) (by simp) turn, ?_⟩
  refine ends.step apart drain done.moves.made done.moves.address done.moves.tcbFreed (fun v => ?_) ?_
  · rcases done.outcome v with ⟨rfl, runs⟩ | ⟨rfl, there⟩ | ⟨-, other, same⟩
    · simp [runs, listed.2, done.other.symm]
    · simp [there]
    · simp [same, Ne.symm other]
  · rintro y same
    obtain rfl : r = y := by simpa using same
    exact ⟨one.listed.1.made, one.listed.1.kept⟩

/-- A switch that changes nothing else. -/
theorem Inv.switch (inv : Inv s) (one : One s r) (listed : s.Listed u)
    (waits : (s.tcb u).state ≠ .running) (acts : s.pc r ≠ .blocked)
    (turn : s.pc u = .blocked → s.inputLocked = false) :
    Inv (s.switchContext u .ready none) := by
  obtain ⟨done, readers, ends⟩ := switch_keeps inv.rows one inv.readers inv.ends listed waits (.inl rfl)
    acts (by simp) turn
  exact ⟨done.rows, ⟨u, done.one⟩, inv.regions.moves done.moves, readers, ends⟩

end OsKernel.Dispatch
