/-
The parts of the handlers keep the invariant: who wakes up, ends or blocks, and what a thread
does with the lock of its process.

`Orderly` names what is asked of a step. The list of terminated threads is used as its loop
needs it, no TCB is made where a node of that list still points to, and the child that a fork
takes, or gives up when it fails, is the one that it has pushed.
-/

import OsKernel.Dispatch.Steps

namespace OsKernel.Dispatch

open OsKernel.Sched

variable {s s' : State} {t u r x : Thread} {p c : Nat} {pc next : Pc} {d : Data} {l : List Thread}
variable {detail : BlockingDetail}

/-! ### Threads that wake up or end -/

/-- No TCB changes. -/
theorem Inv.calm (inv : Inv s) (rows : Rows s') (moves : Moves s s') (tcb : s'.tcb = s.tcb)
    (drain : s'.drain = s.drain) : Inv s' := by
  have listed : ∀ u, s'.Listed u ↔ s.Listed u :=
    fun u => listed_congr (fun _ => moves.counts) fun v => by rw [tcb]
  obtain ⟨r, one⟩ := inv.running
  exact ⟨rows, ⟨r, one.congr tcb listed⟩, inv.regions.moves moves,
    inv.readers.congr moves.pc moves.inputLocked tcb fun u => (listed u).mp,
    inv.ends.frame drain moves.made moves.address (by rw [moves.tcbFreed]; exact fun _ => id)
      fun u => by rw [tcb]⟩

theorem Inv.one (inv : Inv s) (running : s.running = some t) : One s t := by
  obtain ⟨r, one⟩ := inv.running
  exact One.of_running inv.rows one running

/-- A thread that waits, but not as a reader, becomes runnable. -/
theorem Inv.ready (inv : Inv s) (one : One s r) (listed : s.Listed u)
    (waits : (s.tcb u).state = .waiting) (apart : (s.tcb u).listIdx ≠ .reason .readline) :
    Inv (s.alter u .ready none) ∧ One (s.alter u .ready none) r ∧ Moves s (s.alter u .ready none) ∧
      (s.alter u .ready none).drain = s.drain := by
  have other : r ≠ u := by
    rintro rfl
    rw [one.running] at waits
    cases waits
  have goes : (altered (s.tcb u) .ready none).listIdx = .state .ready := rfl
  have stays : (s.tcb u).listIdx ≠ .state .ready := by simp [Tcb.listIdx, waits]
  obtain ⟨done, drain, lists⟩ : Altered s (s.alter u .ready none) u .ready none ∧ _ ∧ _ :=
    inv.rows.alter listed (by simp) (by simp) (by simp) (by rw [goes]; exact stays.symm)
      (by rw [goes]; simp)
  have one' : One (s.alter u .ready none) r := by
    refine ⟨(lists r).mpr one.listed, ?_, fun v lv runs => ?_⟩
    · rw [done.tcb, Function.update_of_ne other]
      exact one.running
    · by_cases self : v = u
      · rw [done.tcb, self, Function.update_self] at runs
        cases runs
      · rw [done.tcb, Function.update_of_ne self] at runs
        exact one.only v ((lists v).mp lv) runs
  refine ⟨⟨done.rows, ⟨r, one'⟩, inv.regions.moves done.moves,
    inv.readers.altered done apart (by rw [waits]; simp), ?_⟩, one', done.moves, drain⟩
  refine inv.ends.frame drain done.moves.made done.moves.address
    (by rw [done.moves.tcbFreed]; exact fun _ => id) (ended_of_moves done.moves fun v lv => ?_)
  rw [done.tcb]
  by_cases self : v = u
  · rw [self, Function.update_self]
    simp [altered]
  · rw [Function.update_of_ne self]
    exact lv.2

theorem listIdx_reason {tcb : Tcb} {reason : Reason} (idx : tcb.listIdx = .reason reason) :
    tcb.state = .waiting := by
  rw [Tcb.listIdx] at idx
  split_ifs at idx
  assumption

theorem Inv.wake (inv : Inv s) (one : One s r) (p : Nat) :
    Inv (s.wake p) ∧ One (s.wake p) r ∧ Moves s (s.wake p) ∧ (s.wake p).drain = s.drain := by
  rw [State.wake]
  cases found : s.findWaiter p with
  | none => exact ⟨inv, one, Moves.refl s, rfl⟩
  | some u =>
      obtain ⟨listed, idx⟩ := (inv.rows.mem_nodes _).mp (List.mem_of_find?_eq_some found)
      exact inv.ready one listed (listIdx_reason idx) (by rw [idx]; simp)

theorem Inv.terminate (inv : Inv s) (one : One s t) (counts : s.Counts u) (other : u ≠ t)
    (apart : Drain.Apart s.drain (.terminate u)) :
    Inv (s.terminate u) ∧ One (s.terminate u) t ∧ Moves s (s.terminate u) ∧
      (s.terminate u).drain = s.drain.terminate u := by
  have own : ∀ y, Drain.Input.terminate u = .terminate y → y < s.made ∧ s.tcbFreed y = false := by
    rintro y same
    obtain rfl : u = y := by simpa using same
    exact ⟨counts.made, counts.kept⟩
  by_cases ended : (s.tcb u).state = .terminated
  · have eq : s.terminate u = { s with drain := s.drain.terminate u } := if_pos ended
    rw [eq]
    have tcb : State.tcb { s with drain := s.drain.terminate u } = s.tcb := rfl
    have listed := listed_frame tcb rfl rfl fun _ => rfl
    have moves : Moves s { s with drain := s.drain.terminate u } :=
      ⟨rfl, rfl, rfl, rfl, rfl, rfl, rfl, rfl, rfl, rfl, fun _ => rfl, fun _ _ => rfl⟩
    have one' := one.congr tcb listed
    refine ⟨⟨inv.rows.congr rfl listed, ⟨t, one'⟩, inv.regions.moves moves,
      inv.readers.congr rfl rfl rfl fun v => (listed v).mp, ?_⟩, one', moves, rfl⟩
    refine inv.ends.step apart rfl rfl rfl rfl (fun v => ?_) own
    rw [tcb]
    refine ⟨.inl, fun either => either.elim id fun same => ?_⟩
    obtain rfl : u = v := by simpa using same
    exact ended
  · obtain ⟨done, drain, lists⟩ := inv.rows.terminate ⟨counts, ended⟩
    have same : ∀ v, v ≠ u → (s.terminate u).tcb v = s.tcb v := fun v ne => by
      rw [done.tcb, Function.update_of_ne ne]
    have one' : One (s.terminate u) t := by
      refine ⟨(lists t).mpr ⟨one.listed, other.symm⟩, ?_, fun v lv runs => ?_⟩
      · rw [same t other.symm]
        exact one.running
      · obtain ⟨old, ne⟩ := (lists v).mp lv
        rw [same v ne] at runs
        exact one.only v old runs
    refine ⟨⟨done.rows, ⟨t, one'⟩, inv.regions.moves done.moves, ?_, ?_⟩, one', done.moves, drain⟩
    · refine inv.readers.step (t := u) (fun v _ => by rw [done.moves.pc]) (by rw [done.moves.pc]; exact id)
        (by rw [done.moves.inputLocked]; exact id)
        (by rw [done.moves.pc, done.moves.inputLocked]; exact inv.readers.free)
        (fun lu => absurd rfl ((lists u).mp lu).2) (fun lu => absurd rfl ((lists u).mp lu).2)
        fun v ne lv => .inl ⟨((lists v).mp lv).1, same v ne⟩
    · refine inv.ends.step apart drain done.moves.made done.moves.address done.moves.tcbFreed
        (fun v => ?_) own
      by_cases self : v = u
      · subst self
        rw [done.tcb, Function.update_self]
        simp [altered]
      · rw [same v self]
        simp [Ne.symm self]

/-- The other threads of a process are terminated, one after the other. -/
theorem Inv.terminateAll (inv : Inv s) (one : One s t) (counts : ∀ u ∈ l, s.Counts u)
    (apart : Run.StepsMeet Drain.step Drain.Apart s.drain
      ((l.filter fun u => u ≠ t).map .terminate)) :
    Inv (s.terminateAll t l) ∧ One (s.terminateAll t l) t ∧ Moves s (s.terminateAll t l) := by
  induction l generalizing s with
  | nil => exact ⟨inv, one, Moves.refl s⟩
  | cons u rest ih =>
      have behind := fun v mem => counts v (List.mem_cons_of_mem u mem)
      rw [State.terminateAll]
      by_cases self : u = t
      · rw [if_pos self]
        rw [List.filter_cons_of_neg (by simpa using self)] at apart
        exact ih inv one behind apart
      · rw [if_neg self]
        rw [List.filter_cons_of_pos (by simpa using self)] at apart
        obtain ⟨inv', one', moves, drain⟩ :=
          inv.terminate one (counts u List.mem_cons_self) self apart.1
        have eq : s.alter u .terminated none = s.terminate u := if_pos rfl
        rw [eq]
        obtain ⟨inv'', one'', moves'⟩ := ih inv' one' (fun v mem => moves.counts.mpr (behind v mem))
          (by rw [drain]; exact apart.2)
        exact ⟨inv'', one'', moves.trans moves'⟩

/-! ### Threads that block -/

theorem Inv.findNextThread (inv : Inv s) (one : One s t) (held : s.owner (s.tcb t).pcb = some t)
    (idle : (s.pc t).builds = none) :
    Inv (s.findNextThread t).1 ∧ One (s.findNextThread t).1 t ∧ Moves s (s.findNextThread t).1 ∧
      (s.findNextThread t).1.tcb = s.tcb ∧ (s.findNextThread t).1.drain = s.drain ∧
      ∀ u, (s.findNextThread t).2 = some u → (s.findNextThread t).1.Listed u ∧ (s.tcb u).state = .ready := by
  obtain ⟨rows, moves, tcb, drain, ready⟩ := inv.rows.findNextThread inv.regions one.listed.1 held idle
  have listed : ∀ u, (s.findNextThread t).1.Listed u ↔ s.Listed u :=
    fun u => listed_congr (fun _ => moves.counts) fun v => by rw [tcb]
  exact ⟨inv.calm rows moves tcb drain, one.congr tcb listed, moves, tcb, drain,
    fun u found => ⟨(listed u).mpr (ready u found).1, (ready u found).2⟩⟩

theorem Inv.roundRobin (inv : Inv s) (one : One s t) :
    Inv s.roundRobin.1 ∧ One s.roundRobin.1 t ∧ Moves s s.roundRobin.1 ∧
      s.roundRobin.1.tcb = s.tcb ∧ s.roundRobin.1.drain = s.drain ∧
      ∀ u, s.roundRobin.2 = some u → s.roundRobin.1.Listed u ∧ (s.tcb u).state = .ready := by
  obtain ⟨rows, moves, tcb, drain, ready⟩ := inv.rows.roundRobin
  have listed : ∀ u, s.roundRobin.1.Listed u ↔ s.Listed u :=
    fun u => listed_congr (fun _ => moves.counts) fun v => by rw [tcb]
  exact ⟨inv.calm rows moves tcb drain, one.congr tcb listed, moves, tcb, drain,
    fun u found => ⟨(listed u).mpr (ready u found).1, (ready u found).2⟩⟩

/-- A runnable thread does not wait for the lock. -/
theorem Readers.turn_of_ready (readers : Readers s) (listed : s.Listed u)
    (ready : (s.tcb u).state = .ready) : s.pc u = .blocked → s.inputLocked = false := by
  intro place
  rcases readers.blocked u listed place with idx | ⟨runs, -⟩
  · simp [Tcb.listIdx, ready] at idx
  · rw [ready] at runs
    cases runs

theorem Moves.goto (moves : Moves s s') (builds : pc.builds = (s.pc t).builds) :
    Moves (s.goto t pc) (s'.goto t pc) where
  pc := by
    simp only [State.goto, moves.pc]
  owner := moves.owner
  tcbList := moves.tcbList
  children := moves.children
  made := moves.made
  procs := moves.procs
  pcbFreed := moves.pcbFreed
  address := moves.address
  tcbFreed := moves.tcbFreed
  inputLocked := moves.inputLocked
  pcb := moves.pcb
  others u out := moves.others u fun listed => out ((listed_goto builds u).mpr listed)

/-- The thread that runs lets its lock go and blocks, if another one is runnable. -/
theorem Inv.block (inv : Inv s) (one : One s t) (held : s.owner (s.tcb t).pcb = some t)
    (idle : (s.pc t).builds = none) (acts : s.pc t ≠ .blocked) (plain : next.plain = true)
    (first : detail = .readline true → (s.pc t).inside = true ∧ next.inside = true)
    (inside : next.inside = true → (s.pc t).inside = true)
    (waits : next = .blocked → detail.reason = .readline) : Inv (s.block t detail next) := by
  obtain ⟨inv₁, one₁, moves₁, tcb₁, -, ready⟩ := inv.findNextThread one held idle
  rw [State.block]
  rcases eq : s.findNextThread t with ⟨s₁, found⟩
  rw [eq] at inv₁ one₁ moves₁ tcb₁ ready
  cases found with
  | none => exact inv
  | some u =>
      obtain ⟨listed, readyU⟩ := ready u rfl
      dsimp only at inv₁ one₁ moves₁ tcb₁ listed ⊢
      rw [← tcb₁] at readyU held
      rw [← moves₁.owner] at held
      rw [← moves₁.pc] at idle acts first inside
      have placed : Placed s₁ t next := .plain plain
      have builds : next.builds = (s₁.pc t).builds := placed.builds.trans idle.symm
      have left : ((s₁.goto t next).pc t).holds = false := by
        rw [goto_pc_self]
        cases next <;> first | rfl | cases plain
      have regions := (inv₁.regions.go one₁.listed.1 idle placed).release held left
      -- the lock is free while the thread is at its old place
      have tcb : (s₁.release t).tcb = s₁.tcb := rfl
      have lists : ∀ v, (s₁.release t).Listed v ↔ s₁.Listed v := listed_frame tcb rfl rfl fun _ => rfl
      have readers₂ : Readers (s₁.release t) := inv₁.readers.congr rfl rfl rfl fun v => (lists v).mp
      have rows₂ : Rows (s₁.release t) := inv₁.rows.congr rfl lists
      have one₂ : One (s₁.release t) t := one₁.congr tcb lists
      have ends₂ : Ends (s₁.release t) :=
        inv₁.ends.frame rfl rfl rfl (fun _ => id) fun _ => Iff.rfl
      obtain ⟨done, readers, ends⟩ := switch_keeps rows₂ one₂ readers₂ ends₂ ((lists u).mpr listed)
        (by rw [tcb, readyU]; simp) (.inr ⟨rfl, by simp⟩) acts
        (fun _ same => (first (Option.some.inj same)).1)
        (readers₂.turn_of_ready ((lists u).mpr listed) readyU)
      have own : ((s₁.release t).switchContext u .waiting (some detail)).tcb t =
          altered (s₁.tcb t) .waiting (some detail) := by
        rw [done.tcb, Function.update_of_ne done.other.symm, Function.update_self]
        rfl
      have pc : ((s₁.release t).switchContext u .waiting (some detail)).pc = s₁.pc := done.moves.pc
      have moves := done.moves.goto (t := t) builds
      generalize (s₁.release t).switchContext u .waiting (some detail) = s₂ at done readers ends own pc moves ⊢
      rw [← pc] at builds inside
      have lists₂ := listed_goto builds
      refine ⟨done.rows.congr rfl lists₂, ⟨u, done.one.congr rfl lists₂⟩, regions.moves moves, ?_,
        ends.frame rfl rfl rfl (fun _ => id) fun _ => Iff.rfl⟩
      refine readers.step (t := t) (fun v => goto_pc_other) (by rwa [goto_pc_self]) id (fun free v => ?_)
        (fun _ _ isFirst => ?_) (fun _ place => ?_) fun v _ lv => .inl ⟨(lists₂ v).mp lv, rfl⟩
      · have nobody := readers.free free
        by_cases self : v = t
        · rw [self, goto_pc_self]
          by_contra within
          have here := inside (by simpa using within)
          rw [nobody t] at here
          cases here
        · rw [goto_pc_other self]
          exact nobody v
      · change (s₂.tcb t).detail.firstReader = true at isFirst
        rw [own] at isFirst
        rw [goto_pc_self]
        refine (first ?_).2
        cases detail with
        | readline b =>
            obtain rfl : b = true := isFirst
            rfl
        | _ => cases isFirst
      · rw [goto_pc_self] at place
        change (s₂.tcb t).listIdx = _
        rw [own]
        simp [altered, Tcb.listIdx, waits place]

/-- The thread that runs lets its lock go and goes on. -/
theorem Inv.letGo (inv : Inv s) (one : One s t) (held : s.owner (s.tcb t).pcb = some t)
    (idle : (s.pc t).builds = none) (plain : next.plain = true) (acts : next ≠ .blocked)
    (inside : next.inside = true → (s.pc t).inside = true) :
    Inv ((s.release t).goto t next) ∧ One ((s.release t).goto t next) t := by
  have placed : Placed s t next := .plain plain
  have left : ((s.goto t next).pc t).holds = false := by
    rw [goto_pc_self]
    cases next <;> first | rfl | cases plain
  have builds := placed.builds.trans idle.symm
  have tcb : ((s.release t).goto t next).tcb = s.tcb := rfl
  have sets : ∀ v, (((s.release t).goto t next).pc v).builds = (s.pc v).builds := by
    intro v
    by_cases self : v = t
    · rw [self, goto_pc_self, builds]
    · rw [goto_pc_other self]
      rfl
  exact ⟨(inv.goto one idle placed inside acts).release held left,
    one.congr tcb (listed_frame tcb rfl rfl sets)⟩

/-- The thread that runs lets its lock go and ends. -/
theorem Inv.leave (inv : Inv s) (one : One s t) (held : s.owner (s.tcb t).pcb = some t)
    (idle : (s.pc t).builds = none) (listed : s.Listed u) (ready : (s.tcb u).state = .ready)
    (apart : Drain.Apart s.drain (.terminate t)) : Inv (s.leave t u) := by
  obtain ⟨inv', one'⟩ : Inv ((s.release t).goto t .user) ∧ _ :=
    inv.letGo one held idle rfl (by simp) (by simp [Pc.inside])
  have acts : ((s.release t).goto t .user).pc t ≠ .blocked := by
    rw [goto_pc_self]
    simp
  have tcb : ((s.release t).goto t .user).tcb = s.tcb := rfl
  have drain : ((s.release t).goto t .user).drain = s.drain := rfl
  have here : ((s.release t).goto t .user).Listed u := by
    refine (listed_frame tcb rfl rfl (fun v => ?_) u).mpr listed
    by_cases self : v = t
    · rw [self, goto_pc_self, idle]
      rfl
    · rw [goto_pc_other self]
      rfl
  rw [← tcb] at ready
  rw [← drain] at apart
  rw [State.leave]
  generalize (s.release t).goto t .user = s' at inv' one' here acts ready apart ⊢
  obtain ⟨done, readers, ends⟩ := exit_keeps inv'.rows one' inv'.readers inv'.ends here
    (by rw [ready]; simp) acts (inv'.readers.turn_of_ready here ready) apart
  exact ⟨done.rows, ⟨u, done.one⟩, inv'.regions.moves done.moves, readers, ends⟩

theorem Inv.vanish (inv : Inv s) (one : One s t) (held : s.owner (s.tcb t).pcb = some t)
    (idle : (s.pc t).builds = none) (apart : Drain.Apart s.drain (.terminate t)) (alive parent : Nat) :
    Inv (s.vanish t alive parent) := by
  rw [State.vanish]
  split_ifs with last
  · obtain ⟨inv₁, one₁, moves₁, drain₁⟩ := inv.wake one parent
    obtain ⟨inv₂, one₂, moves₂, tcb₂, drain₂, ready⟩ := inv₁.roundRobin one₁
    have moves := moves₁.trans moves₂
    rcases eq : (s.wake parent).roundRobin with ⟨s₂, found⟩
    rw [eq] at inv₂ one₂ tcb₂ drain₂ ready moves
    cases found with
    | none => exact inv
    | some u =>
        obtain ⟨listed, readyU⟩ := ready u rfl
        refine inv₂.leave one₂ ?_ ?_ listed ?_ ?_
        · rw [moves.owner, moves.pcb]
          exact held
        · rw [moves.pc]
          exact idle
        · rw [tcb₂]
          exact readyU
        · rw [drain₂, drain₁]
          exact apart
  · obtain ⟨inv₁, one₁, moves, tcb₁, drain₁, ready⟩ := inv.findNextThread one held idle
    rcases eq : s.findNextThread t with ⟨s₁, found⟩
    rw [eq] at inv₁ one₁ tcb₁ drain₁ ready moves
    cases found with
    | none => exact (inv.letGo one held idle rfl (by simp) (by simp [Pc.inside])).1
    | some u =>
        obtain ⟨listed, readyU⟩ := ready u rfl
        refine inv₁.leave one₁ ?_ ?_ listed ?_ ?_
        · rw [moves.owner, moves.pcb]
          exact held
        · rw [moves.pc]
          exact idle
        · rw [tcb₁]
          exact readyU
        · rw [drain₁]
          exact apart

/-! ### Waiting for children -/

theorem Inv.shrink (inv : Inv s) (sub : l.Sublist (s.tcbList p))
    (gone : ∀ u ∈ s.tcbList p, u ∉ l → (s.tcb u).state = .terminated)
    (made : ∀ u x, s.pc u = .made x → (s.tcb u).pcb ≠ p)
    (forked : ∀ u c x, s.pc u = .forked c x → c ≠ p) :
    Inv { s with tcbList := Function.update s.tcbList p l } := by
  have tcb : State.tcb { s with tcbList := Function.update s.tcbList p l } = s.tcb := rfl
  have listed := listed_frame tcb rfl rfl fun _ => rfl
  exact inv.quiet rfl rfl rfl rfl (fun _ => id) listed
    (inv.regions.shrink sub (fun _ => .inl rfl) (fun u mem out _ => gone u mem out) made forked)
    (inv.readers.congr rfl rfl rfl fun u => (listed u).mp)

/-- No thread of the process is left, not even one that is being set up. -/
theorem ended_of_aliveCount (none : s.aliveCount c = 0) :
    ∀ u ∈ s.tcbList c, (s.tcb u).state = .terminated := by
  intro u mem
  by_contra goesOn
  have alive : u ∈ (s.tcbList c).filter fun u => (s.tcb u).state ≠ .terminated :=
    List.mem_filter.mpr ⟨mem, by simpa using goesOn⟩
  rw [State.aliveCount, List.length_eq_zero_iff] at none
  rw [none] at alive
  cases alive

theorem Inv.detach (inv : Inv s) (one : One s t) (held : s.owner (s.tcb t).pcb = some t)
    (idle : (s.pc t).builds = none) (none : s.aliveCount c = 0) (given : s.tcbList c ≠ []) :
    Inv (((s.detach p c).release t).goto t (.freeTcbs (s.tcbList c))) := by
  have ended := ended_of_aliveCount none
  have sets : ∀ v x, (s.pc v).builds = some x → x ∉ s.tcbList c := by
    intro v x builds mem
    have ready := (inv.regions.builders v x builds).2.1
    rw [ended x mem] at ready
    cases ready
  have made : ∀ u x, s.pc u = .made x → (s.tcb u).pcb ≠ c := by
    rintro u x place rfl
    exact sets u x (by rw [place]; rfl) (List.mem_of_getLast? (inv.regions.made u x place).2)
  have forked : ∀ u c' x, s.pc u = .forked c' x → c' ≠ c := by
    rintro u c' x place rfl
    exact sets u x (by rw [place]; rfl) (by rw [inv.regions.forked u c' x place]; simp)
  have known : c < s.procs := by
    by_contra late
    exact given (inv.regions.procs.2 c (Nat.le_of_not_lt late)).1
  have born : ∀ u, (s.pc u).child ≠ some c := by
    intro u child
    cases place : s.pc u with
    | pushed q =>
        obtain rfl : q = c := by simpa [place, Pc.child] using child
        exact given (inv.regions.pushed u q (.inl place))
    | copying q =>
        obtain rfl : q = c := by simpa [place, Pc.child] using child
        exact given (inv.regions.pushed u q (.inr place))
    | forked q x =>
        obtain rfl : q = c := by simpa [place, Pc.child] using child
        exact forked u q x place rfl
    | _ => simp [place, Pc.child] at child
  have shrunk := inv.shrink (l := []) (List.nil_sublist _) (fun u mem _ => ended u mem) made forked
  have inv₁ : Inv (s.detach p c) :=
    (shrunk.freePcb known (fun u mem => ended u (by simp at mem)) born).grown (Nat.le_refl _)
      (s.detach p c).children
  have tcb : (s.detach p c).tcb = s.tcb := rfl
  have one₁ : One (s.detach p c) t := one.congr tcb (listed_frame tcb rfl rfl fun _ => rfl)
  have placed : Placed (s.detach p c) t (.freeTcbs (s.tcbList c)) := by
    refine ⟨rfl, by simp [Pc.holds], by simp, by simp [Pc.child], ?_⟩
    rintro l same u mem
    obtain rfl : s.tcbList c = l := by simpa using same
    refine ⟨ended u mem, fun q inList => ?_⟩
    change u ∈ Function.update s.tcbList c [] q at inList
    rw [Function.update_apply] at inList
    split_ifs at inList with target
    · cases inList
    · exact target ((inv.regions.tcbs q u inList).2.2.symm.trans (inv.regions.tcbs c u mem).2.2)
  exact (inv₁.goto one₁ idle placed (by simp [Pc.inside]) (by simp)).release held
    (by rw [goto_pc_self]; rfl)

theorem Inv.wait (inv : Inv s) (one : One s t) (held : s.owner (s.tcb t).pcb = some t)
    (place : s.pc t = .locked .wait) : Inv (s.wait t) := by
  have idle : (s.pc t).builds = none := by rw [place]; rfl
  rw [State.wait]
  split_ifs with alone
  · exact (inv.letGo one held idle rfl (by simp) (by simp [Pc.inside])).1
  · split
    · rename_i c found
      have none : s.aliveCount c = 0 := by simpa using List.find?_some found
      split_ifs with empty
      · exact inv
      · exact inv.detach one held idle none empty
    · exact inv.block one held idle (by rw [place]; simp) rfl (by simp) (by simp [Pc.inside]) (by simp)

/-! ### The regions -/

/-- `child_pcb_list->previous` of the process of thread `t`. -/
def State.Back (s : State) (t : Thread) (c : Nat) : Prop :=
  (s.children (s.tcb t).pcb).getLast? = some c

instance : Decidable (s.Back t c) :=
  inferInstanceAs (Decidable ((s.children (s.tcb t).pcb).getLast? = some c))

/-- What is asked of the next step of thread `t`, at this place. -/
def State.Asks (s : State) (t : Thread) (d : Data) : Pc → Prop
  | .locked .taskVanish => Run.StepsMeet Drain.step Drain.Apart s.drain
      (((s.tcbList (s.tcb t).pcb).filter fun u => u ≠ t).map .terminate)
  | .vanishing _ => Drain.Apart s.drain (.terminate t)
  | .locked .threadFork => d.address ∉ s.drain.visited.map s.address
  | .pushed c => s.Back t c
  | .copying c =>
      d.address ∉ s.drain.visited.map s.address ∧
        (¬ (d.success = true ∧ s.room d.address = true) → s.Back t c)
  | .forked c _ => d.success = false → s.Back t c
  | .drain => Drain.Apart s.drain (.drain t)
  | _ => True

def Orderly (s : State) : Input → Prop
  | .advance d => ∀ t, s.running = some t → s.Asks t d (s.pc t)
  | _ => True

theorem listed_gate {locked : Bool} (builds : pc.builds = (s.pc t).builds) (u : Thread) :
    (State.goto { s with inputLocked := locked } t pc).Listed u ↔ s.Listed u := by
  have sets : ∀ v, ((State.goto { s with inputLocked := locked } t pc).pc v).builds = (s.pc v).builds := by
    intro v
    by_cases self : v = t
    · rw [self, goto_pc_self, builds]
    · rw [goto_pc_other self]
  have tcb : (State.goto { s with inputLocked := locked } t pc).tcb = s.tcb := rfl
  exact listed_frame tcb rfl rfl sets u

/-- `input_lock` is taken or released by the thread that runs, as it goes on. -/
theorem Inv.gate (inv : Inv s) (one : One s t) (idle : (s.pc t).builds = none) (placed : Placed s t pc)
    {locked : Bool} (readers : Readers (State.goto { s with inputLocked := locked } t pc)) :
    Inv (State.goto { s with inputLocked := locked } t pc) :=
  inv.quiet rfl rfl rfl rfl (fun _ => id) (listed_gate (placed.builds.trans idle.symm))
    ((inv.regions.go one.listed.1 idle placed).input locked) readers

theorem Inv.threadFork (inv : Inv s) (one : One s t) (place : s.pc t = .locked .threadFork)
    (room : s.room d.address = true) (away : d.address ∉ s.drain.visited.map s.address) :
    Inv ((s.make t (s.tcb t).pcb d (s.tcbList (s.tcb t).pcb ++ [s.made])).goto t (.made s.made)) := by
  have idle : (s.pc t).builds = none := by rw [place]; rfl
  have held := inv.regions.holders t (by rw [place]; rfl)
  have counts := one.listed.1
  have new : s.made ∉ s.tcbList (s.tcb t).pcb :=
    fun mem => Nat.lt_irrefl _ (inv.regions.tcbs _ _ mem).1
  refine inv.make one idle rfl rfl (by simp) room away ?_
  refine inv.regions.makes (makes s t _ d _ _) counts idle rfl (inv.regions.procs.1 t counts.made)
    (inv.regions.housed t one.listed.goesOn).2 (fun u => by simp [or_comm]) ?_
    (fun u x other place same => ?_) (fun u c _ child same => ?_) (.inl ⟨rfl, rfl, held, by simp⟩)
  · exact (List.perm_append_singleton _ _).nodup_iff.mpr
      (List.nodup_cons.mpr ⟨new, inv.regions.nodup _⟩)
  · have owner := inv.regions.holders u (by rw [place]; rfl)
    rw [same, held, Option.some.injEq] at owner
    exact other owner.symm
  · exact (inv.regions.children u c child).empty t counts same.symm

theorem Inv.copying (inv : Inv s) (one : One s t) (place : s.pc t = .copying c)
    (room : s.room d.address = true) (away : d.address ∉ s.drain.visited.map s.address) :
    Inv ((s.make t c d (s.made :: s.tcbList c)).goto t (.forked c s.made)) := by
  have idle : (s.pc t).builds = none := by rw [place]; rfl
  have child : (s.pc t).child = some c := by rw [place]; rfl
  have empty := inv.regions.pushed t c (.inr place)
  refine inv.make one idle rfl rfl (by simp) room away ?_
  refine inv.regions.makes (makes s t c d _ _) one.listed.1 idle rfl
    (inv.regions.children t c child).pushed (inv.regions.children t c child).kept
    (fun u => List.mem_cons) ?_
    (fun u x _ place same => ?_) (fun u q other child' same => ?_) (.inr ⟨rfl, child, by rw [empty]⟩)
  · rw [empty]
    exact List.nodup_singleton _
  · have last := (inv.regions.made u x place).2
    rw [same, empty] at last
    cases last
  · exact other (inv.regions.forker u t c (same ▸ child') child)

theorem Inv.region (inv : Inv s) (one : One s t) {g : Region} (place : s.pc t = .locked g)
    (orderly : Orderly s (.advance d)) : Inv (s.region t d g) := by
  have idle : (s.pc t).builds = none := by rw [place]; rfl
  have held := inv.regions.holders t (by rw [place]; rfl)
  have acts : s.pc t ≠ .blocked := by rw [place]; simp
  have asked := orderly t (inv.rows.running one)
  rw [place] at asked
  cases g with
  | deschedule =>
      rw [State.region]
      split_ifs
      · exact (inv.letGo one held idle rfl (by simp) (by simp [Pc.inside])).1
      · exact inv.block one held idle acts rfl (by simp) (by simp [Pc.inside]) (by simp)
  | sleep ticks =>
      exact inv.block one held idle acts rfl (by simp) (by simp [Pc.inside]) (by simp)
  | wait => exact inv.wait one held place
  | vanish =>
      exact inv.goto one idle (.held held (.inr ⟨_, rfl⟩)) (by simp [Pc.inside]) (by simp)
  | taskVanish =>
      have counts := fun u => inv.regions.counts_of_mem (u := u) one.listed.1 held idle
      obtain ⟨inv', one', moves⟩ := inv.terminateAll one counts asked
      refine inv'.goto one' ?_ (.unlock ?_ rfl (by simp)) (by simp [Pc.inside]) (by simp)
      · rw [moves.pc]
        exact idle
      · rw [moves.owner, moves.pcb]
        exact held
  | enterReadline =>
      rw [State.region]
      split_ifs with locked
      · exact inv.block one held idle acts rfl (by simp) (by simp [Pc.inside]) fun _ => rfl
      · have placed : Placed s t (.unlock .read) := .unlock held rfl (by simp)
        have listed : ∀ u, (State.goto { s with inputLocked := true } t (.unlock .read)).Listed u ↔
            s.Listed u := listed_gate (placed.builds.trans idle.symm)
        refine inv.gate one idle placed ?_
        exact inv.readers.enter one (by simpa using locked)
          (fun u => goto_pc_other) rfl (by rw [goto_pc_self]; simp) (fun u => (listed u).mp) rfl
  | readChar =>
      rw [State.region]
      have within : (s.pc t).inside = true := by rw [place]; rfl
      split_ifs
      · exact inv.goto one idle (.unlock held rfl (by simp)) (fun _ => within) (by simp)
      · exact inv.block one held idle acts rfl (fun _ => ⟨within, rfl⟩) (fun _ => within) (by simp)
  | threadFork =>
      rw [State.region]
      split_ifs with makes
      · exact inv.threadFork one place makes.2 asked
      · exact inv.goto one idle (.unlock held rfl (by simp)) (by simp [Pc.inside]) (by simp)
  | fork =>
      rw [State.region]
      split_ifs
      · exact inv.goto one idle (.unlock held rfl (by simp)) (by simp [Pc.inside]) (by simp)
      · exact inv.goto one idle (.unlock held rfl (by simp)) (by simp [Pc.inside]) (by simp)

end OsKernel.Dispatch
