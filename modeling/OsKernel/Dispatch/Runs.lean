/-
Runs of the lists of threads.

`arranged_along`: in a run whose steps are `Orderly`, between any two steps the nine lists are
circular, a thread that is set up and goes on has its TCB and its PCB and is in the list of its
state, once, and in no other, whatever was freed and used again, exactly one thread runs, the
threads of a process stand together among the runnable ones, and only the head of the readers
may be the one that reads.
-/

import OsKernel.Dispatch.Handlers

namespace OsKernel.Dispatch

open OsKernel.Sched

variable {s : State} {t u x : Thread} {p c : Nat} {pc : Pc} {d : Data} {i : Input}

/-! ### The thread that runs -/

/-- A fork that fails frees the PCB that it has pushed. -/
theorem Inv.popChild (inv : Inv (s.goto t pc)) (back : s.Back t c) (known : c < s.procs)
    (empty : ∀ u ∈ (s.goto t pc).tcbList c, (s.tcb u).state = .terminated)
    (apart : ∀ u, ((s.goto t pc).pc u).child ≠ some c) :
    Inv ((s.popChild (s.tcb t).pcb).goto t pc) := by
  have last : (s.children (s.tcb t).pcb).getLast? = some c := back
  have freed := (inv.freePcb known empty apart).grown (Nat.le_refl _)
    (Function.update s.children (s.tcb t).pcb (s.children (s.tcb t).pcb).dropLast)
  rw [State.popChild, last]
  exact freed

/-- No thread sets up the process any more when the one that did so goes on. -/
theorem Regions.childless (regions : Regions s) (child : (s.pc t).child = some c)
    (none : pc.child = none) (u : Thread) : ((s.goto t pc).pc u).child ≠ some c := by
  intro here
  by_cases self : u = t
  · rw [self, goto_pc_self, none] at here
    cases here
  · rw [goto_pc_other self] at here
    exact self (regions.forker u t c here child)

/-- The lock is free when a reader that was waiting for it goes on. -/
theorem Readers.turn (readers : Readers s) (one : One s t) (place : s.pc t = .blocked) :
    s.inputLocked = false := by
  rcases readers.blocked t one.listed place with idx | ⟨-, open'⟩
  · rw [listIdx_running.mpr one.running] at idx
    cases idx
  · exact open'

theorem Inv.finish (inv : Inv s) (one : One s t) (place : s.pc t = .read) : Inv (s.finish t) := by
  have idle : (s.pc t).builds = none := by rw [place]; rfl
  have within : (s.pc t).inside = true := by rw [place]; rfl
  have nobody : ∀ u, ((State.goto { s with inputLocked := false } t .user).pc u).inside = false := by
    intro u
    by_cases self : u = t
    · rw [self, goto_pc_self]
      rfl
    · rw [goto_pc_other self]
      by_contra here
      exact self (inv.readers.alone u t (by simpa using here) within)
  have listed : ∀ u, (State.goto { s with inputLocked := false } t .user).Listed u ↔ s.Listed u :=
    listed_gate (by rw [idle]; rfl)
  have readers : Readers (State.goto { s with inputLocked := false } t .user) := by
    refine inv.readers.step (t := t) (fun u => goto_pc_other) (by rw [goto_pc_self]; simp [Pc.inside])
      (fun _ => rfl) (fun _ => nobody) (fun _ idx => ?_) (fun _ here => ?_)
      fun u _ lu => .inl ⟨(listed u).mp lu, rfl⟩
    · change (s.tcb t).listIdx = _ at idx
      rw [listIdx_running.mpr one.running] at idx
      cases idx
    · rw [goto_pc_self] at here
      cases here
  have inv' := inv.gate one idle (.plain rfl) readers
  rw [State.finish]
  cases head : s.live.threadLists (.reason .readline) with
  | none => exact inv'
  | some h =>
      obtain ⟨lh, idx⟩ := inv.rows.head head
      have tcb : (State.goto { s with inputLocked := false } t .user).tcb = s.tcb := rfl
      refine inv'.switch (one.congr tcb listed) ((listed h).mpr lh) ?_ (by rw [goto_pc_self]; simp)
        fun _ => rfl
      rw [tcb, listIdx_reason idx]
      simp

theorem Inv.made (inv : Inv s) (one : One s t) (place : s.pc t = .made x) (d : Data) :
    Inv (s.advance t d) := by
  have builds : (s.pc t).builds = some x := by rw [place]; rfl
  have held := inv.regions.holders t (by rw [place]; rfl)
  obtain ⟨pcb, last⟩ := inv.regions.made t x place
  have kept := (inv.regions.tcbs _ x (List.mem_of_getLast? last)).2.1
  have placed : Placed s t (.unlock .user) := .unlock held rfl (by simp)
  have apart : ∀ u c, u ≠ t → (s.pc u).child = some c → (s.tcb x).pcb ≠ c := by
    rintro u c - child rfl
    exact (inv.regions.children u _ child).empty t one.listed.1 pcb.symm
  rw [State.advance, place]
  dsimp only
  split_ifs
  · refine inv.setUp one builds placed rfl (by simp) kept apart Rings.enqueue_tcb
      fun k shows lined new ready => ?_
    exact ⟨_, shows.enqueue lined.wellFormed (Rows.enough lined)
      (fun j mem => new ((lined.mem j x).mp mem).1), lined.enqueue new ready fun _ => Iff.rfl⟩
  · refine inv.unmake one builds rfl rfl (by simp) ?_
    refine inv.regions.unmake one.listed.1 builds placed last apart (fun u y other here same => ?_)
      fun u c y _ here same => ?_
    · have owner := inv.regions.holders u (by rw [here]; rfl)
      rw [same, held, Option.some.injEq] at owner
      exact other owner.symm
    · exact (inv.regions.children u c (by rw [here]; rfl)).empty t one.listed.1 same.symm

theorem Inv.forked (inv : Inv s) (one : One s t) (place : s.pc t = .forked c x) (d : Data)
    (asked : d.success = false → s.Back t c) : Inv (s.advance t d) := by
  have builds : (s.pc t).builds = some x := by rw [place]; rfl
  have child : (s.pc t).child = some c := by rw [place]; rfl
  have list := inv.regions.forked t c x place
  obtain ⟨-, kept, pcb⟩ := inv.regions.tcbs c x (by rw [list]; simp)
  have placed : Placed s t .user := .plain rfl
  have apart : ∀ u q, u ≠ t → (s.pc u).child = some q → (s.tcb x).pcb ≠ q := by
    rintro u q other child' same
    exact other (inv.regions.forker u t c (by rw [child', ← same, pcb]) child)
  rw [State.advance, place]
  dsimp only
  split_ifs with success
  · refine inv.setUp one builds placed rfl (by simp) kept apart Rings.append_tcb
      fun k shows lined new ready => ?_
    refine ⟨_, shows.append lined.wellFormed (fun j mem => new ((lined.mem j x).mp mem).1),
      lined.append new ready (fun _ => Iff.rfl) fun u listed same => ?_⟩
    rw [← shows.tcb] at same
    exact (inv.regions.children t c child).empty u listed.1 (same.trans pcb)
  · have regions : Regions ((s.unmake c x).goto t .user) := by
      refine inv.regions.unmake one.listed.1 builds placed (by rw [list]; rfl) apart
        (fun u y other here same => ?_) fun u q y other here same => ?_
      · have last := (inv.regions.made u y here).2
        rw [same, list] at last
        obtain rfl : x = y := by simpa using last
        exact other (inv.regions.builder u t x (by rw [here]; rfl) builds)
      · exact other (inv.regions.forker u t c (by rw [here, same]; rfl) child)
    refine (inv.unmake one builds rfl rfl (by simp) regions).popChild (asked (by simpa using success))
      (inv.regions.children t c child).pushed (fun u mem => ?_) (inv.regions.childless child rfl)
    change u ∈ Function.update s.tcbList c (s.tcbList c).dropLast c at mem
    rw [Function.update_self, list] at mem
    cases mem

theorem Inv.drained (inv : Inv s) (apart : Drain.Apart s.drain (.drain t)) :
    Inv { s with drain := Drain.step s.drain (.drain t) } := by
  have tcb : State.tcb { s with drain := Drain.step s.drain (.drain t) } = s.tcb := rfl
  have listed := listed_frame tcb rfl rfl fun _ => rfl
  have moves : Moves s { s with drain := Drain.step s.drain (.drain t) } :=
    ⟨rfl, rfl, rfl, rfl, rfl, rfl, rfl, rfl, rfl, rfl, fun _ => rfl, fun _ _ => rfl⟩
  obtain ⟨r, one⟩ := inv.running
  exact ⟨inv.rows.congr rfl listed, ⟨r, one.congr tcb listed⟩, inv.regions.moves moves,
    inv.readers.congr rfl rfl rfl fun u => (listed u).mp,
    inv.ends.step apart rfl rfl rfl rfl (fun _ => by rw [tcb]; simp) (by simp)⟩

theorem Inv.advance (inv : Inv s) (one : One s t) (orderly : Orderly s (.advance d)) :
    Inv (s.advance t d) := by
  have asked := orderly t (inv.rows.running one)
  cases place : s.pc t with
  | user => rwa [State.advance, place]
  | lock g =>
      rw [State.advance, place]
      dsimp only
      split_ifs with free
      · have tcb : (s.acquire t).tcb = s.tcb := rfl
        have one' : One (s.acquire t) t := one.congr tcb (listed_frame tcb rfl rfl fun _ => rfl)
        have held : (s.acquire t).owner ((s.acquire t).tcb t).pcb = some t := Function.update_self ..
        refine (inv.acquire free).goto one' (by change (s.pc t).builds = none; rw [place]; rfl)
          (.held held (.inl ⟨g, rfl⟩)) (fun within => ?_) (by simp)
        change (s.pc t).inside = true
        rw [place]
        cases g <;> first | rfl | cases within
      · exact inv
  | locked g =>
      have steps := inv.region one place orderly
      rwa [State.advance, place]
  | unlock next =>
      obtain ⟨plain, acts⟩ := inv.regions.unlocks t next place
      rw [State.advance, place]
      exact (inv.letGo one (inv.regions.holders t (by rw [place]; rfl)) (by rw [place]; rfl) plain acts
        (by rw [place]; exact id)).1
  | made x => exact inv.made one place d
  | forks =>
      have idle : (s.pc t).builds = none := by rw [place]; rfl
      rw [State.advance, place]
      dsimp only
      split_ifs
      · have inv' := inv.grown (Nat.le_succ _) (s.pushChild (s.tcb t).pcb).children
        have tcb : (s.pushChild (s.tcb t).pcb).tcb = s.tcb := rfl
        have one' : One (s.pushChild (s.tcb t).pcb) t := one.congr tcb (listed_frame tcb rfl rfl fun _ => rfl)
        refine Inv.goto inv' one' idle ⟨rfl, by simp [Pc.holds], by simp, ?_, by simp⟩ (by simp [Pc.inside])
          (by simp)
        rintro q same
        obtain rfl : s.procs = q := by simpa [Pc.child] using same
        obtain ⟨empty, kept⟩ := inv.regions.procs.2 s.procs (Nat.le_refl _)
        refine ⟨⟨Nat.lt_succ_self _, kept, fun u counts => ?_⟩, empty, idle, fun u child => ?_⟩
        · exact Nat.ne_of_lt (inv.regions.procs.1 u counts.made)
        · exact absurd (inv.regions.children u _ child).pushed (Nat.lt_irrefl _)
      · exact inv.goto one idle (.plain rfl) (by simp [Pc.inside]) (by simp)
  | pushed q =>
      rw [place] at asked
      have back : (s.children (s.tcb t).pcb).getLast? = some q := asked
      rw [State.advance, place]
      dsimp only
      rw [back]
      have child : (s.pc t).child = some q := by rw [place]; rfl
      have idle : (s.pc t).builds = none := by rw [place]; rfl
      refine inv.goto one idle ⟨rfl, by simp [Pc.holds], by simp, ?_, by simp⟩ (by simp [Pc.inside])
        (by simp)
      rintro c same
      obtain rfl : q = c := by simpa [Pc.child] using same
      exact ⟨inv.regions.children t q child, inv.regions.pushed t q (.inl place), idle,
        fun u child' => inv.regions.forker u t q child' child⟩
  | copying c =>
      rw [place] at asked
      rw [State.advance, place]
      dsimp only
      split_ifs with makes
      · exact inv.copying one place makes.2 asked.1
      · have idle : (s.pc t).builds = none := by rw [place]; rfl
        have child : (s.pc t).child = some c := by rw [place]; rfl
        have empty := inv.regions.pushed t c (.inr place)
        refine (inv.goto one idle (.plain rfl) (by simp [Pc.inside]) (by simp)).popChild
          (asked.2 makes) (inv.regions.children t c child).pushed (fun u mem => ?_) ?_
        · change u ∈ s.tcbList c at mem
          rw [empty] at mem
          cases mem
        · exact inv.regions.childless child rfl
  | forked c x =>
      rw [place] at asked
      exact inv.forked one place d asked
  | vanishing alive =>
      rw [place] at asked
      rw [State.advance, place]
      exact inv.vanish one (inv.regions.holders t (by rw [place]; rfl)) (by rw [place]; rfl) asked _ _
  | blocked =>
      have idle : (s.pc t).builds = none := by rw [place]; rfl
      have open' : s.inputLocked = false := inv.readers.turn one place
      have listed : ∀ u, (State.goto { s with inputLocked := true } t .read).Listed u ↔ s.Listed u :=
        listed_gate (by rw [idle]; rfl)
      rw [State.advance, place]
      exact inv.gate one idle (.plain rfl) (inv.readers.enter one open' (fun u => goto_pc_other) rfl
        (by rw [goto_pc_self]; simp) (fun u => (listed u).mp) rfl)
  | read =>
      rw [State.advance, place]
      dsimp only
      split_ifs
      · exact inv.finish one place
      · exact inv.goto one (by rw [place]; rfl) (.plain rfl) (by rw [place]; exact fun _ => rfl) (by simp)
  | freeTcbs l =>
      have idle : (s.pc t).builds = none := by rw [place]; rfl
      have freed := inv.regions.freed t l place
      cases l with
      | nil =>
          rw [State.advance, place]
          exact inv.goto one idle (.plain rfl) (by simp [Pc.inside]) (by simp)
      | cons x rest =>
          obtain ⟨ended, out⟩ := freed x List.mem_cons_self
          rw [State.advance, place]
          have tcb : (s.freeTcb x).tcb = s.tcb := rfl
          have one' : One (s.freeTcb x) t := one.congr tcb
            (listed_freed tcb rfl rfl (fun listed => listed.2 ended) fun _ _ _ => Iff.rfl)
          refine (inv.freeTcb ended out).goto one' idle
            ⟨rfl, by simp [Pc.holds], by simp, by simp [Pc.child], ?_⟩ (by simp [Pc.inside]) (by simp)
          rintro l same u mem
          obtain rfl : rest = l := by simpa using same
          exact freed u (List.mem_cons_of_mem x mem)
  | drain =>
      rw [place] at asked
      have idle : (s.pc t).builds = none := by rw [place]; rfl
      have inv' := inv.drained asked
      have tcb : State.tcb { s with drain := Drain.step s.drain (.drain t) } = s.tcb := rfl
      have one' : One { s with drain := Drain.step s.drain (.drain t) } t :=
        one.congr tcb (listed_frame tcb rfl rfl fun _ => rfl)
      rw [State.advance, place]
      dsimp only
      split_ifs
      · exact inv'.goto one' idle (.plain rfl) (by simp [Pc.inside]) (by simp)
      · exact inv'
  | wakes =>
      have idle : (s.pc t).builds = none := by rw [place]; rfl
      obtain ⟨inv₁, one₁, moves₁, -⟩ := inv.wake one (s.tcb t).pcb
      obtain ⟨inv₂, one₂, moves₂, -⟩ := inv₁.wake one₁ init
      rw [← (moves₁.trans moves₂).pc] at idle
      rw [State.advance, place]
      exact inv₂.goto one₂ idle (.plain rfl) (by simp [Pc.inside]) (by simp)

/-! ### What comes from outside -/

/-- The thread that runs gives way to a runnable one, if there is one. -/
theorem Inv.giveWay (inv : Inv s) (one : One s t) (acts : s.pc t ≠ .blocked) :
    Inv (match s.roundRobin with
      | (_, none) => s
      | (s', some u) => s'.switchContext u .ready none) := by
  obtain ⟨inv₁, one₁, moves, tcb₁, -, ready⟩ := inv.roundRobin one
  rcases eq : s.roundRobin with ⟨s₁, found⟩
  rw [eq] at inv₁ one₁ moves tcb₁ ready
  cases found with
  | none => exact inv
  | some u =>
      obtain ⟨listed, readyU⟩ := ready u rfl
      dsimp only at inv₁ one₁ moves tcb₁ listed ⊢
      rw [← tcb₁] at readyU
      rw [← moves.pc] at acts
      exact inv₁.switch one₁ listed (by rw [readyU]; simp) acts
        (inv₁.readers.turn_of_ready listed readyU)

theorem listIdx_ready {tcb : Tcb} (idx : tcb.listIdx = .state .ready) : tcb.state = .ready := by
  rw [Tcb.listIdx] at idx
  split_ifs at idx
  simpa using idx

theorem Inv.yield (inv : Inv s) (one : One s t) (acts : s.pc t ≠ .blocked) (tid : Int) :
    Inv (s.yield tid) := by
  rw [State.yield]
  split_ifs
  · exact inv.giveWay one acts
  · cases found : s.findTid tid (.state .ready) with
    | none => exact inv
    | some u =>
        obtain ⟨listed, idx⟩ := (inv.rows.mem_nodes _).mp (List.mem_of_find?_eq_some found)
        have ready := listIdx_ready idx
        exact inv.switch one listed (by rw [ready]; simp) acts (inv.readers.turn_of_ready listed ready)

theorem Inv.makeRunnable (inv : Inv s) (one : One s t) (tid : Int) : Inv (s.makeRunnable tid) := by
  rw [State.makeRunnable]
  cases found : s.findTid tid (.reason .deschedule) with
  | none => exact inv
  | some u =>
      obtain ⟨listed, idx⟩ := (inv.rows.mem_nodes _).mp (List.mem_of_find?_eq_some found)
      exact (inv.ready one listed (listIdx_reason idx) (by rw [idx]; simp)).1

theorem Inv.handleTimer (inv : Inv s) (one : One s t) (acts : s.pc t ≠ .blocked) :
    Inv s.handleTimer := by
  have tcb : State.tcb { s with tickCount := s.tickCount + 1 } = s.tcb := rfl
  have listed := listed_frame tcb rfl rfl fun _ => rfl
  have rows : Rows { s with tickCount := s.tickCount + 1 } := inv.rows.congr rfl listed
  have inv' := inv.calm rows
    ⟨rfl, rfl, rfl, rfl, rfl, rfl, rfl, rfl, rfl, rfl, fun _ => rfl, fun _ _ => rfl⟩ tcb rfl
  have one' : One { s with tickCount := s.tickCount + 1 } t := one.congr tcb listed
  have acts' : State.pc { s with tickCount := s.tickCount + 1 } t ≠ .blocked := acts
  rw [State.handleTimer]
  generalize { s with tickCount := s.tickCount + 1 } = s' at inv' one' acts' ⊢
  cases found : (s'.live.threadLists (.reason .sleep)).filter fun u =>
      decide ((s'.tcb u).detail.wakeupTime ≤ s'.tickCount) with
  | none => exact inv'.giveWay one' acts'
  | some u =>
      obtain ⟨lu, idx⟩ := inv'.rows.head (Option.filter_eq_some_iff.mp found).1
      refine inv'.switch one' lu (by rw [listIdx_reason idx]; simp) acts' fun place => ?_
      rcases inv'.readers.blocked u lu place with reads | ⟨-, open'⟩
      · rw [idx] at reads
        cases reads
      · exact open'

theorem Inv.handleKeyboard (inv : Inv s) (one : One s t) (acts : s.pc t ≠ .blocked) :
    Inv s.handleKeyboard := by
  rw [State.handleKeyboard]
  cases head : s.live.threadLists (.reason .readline) with
  | none => exact inv
  | some h =>
      obtain ⟨lh, idx⟩ := inv.rows.head head
      dsimp only
      split_ifs with first
      · refine inv.switch one lh (by rw [listIdx_reason idx]; simp) acts fun place => ?_
        have within := inv.readers.first h lh idx first
        rw [place] at within
        cases within
      · exact inv

theorem Inv.event (inv : Inv s) (one : One s t) (acts : s.pc t ≠ .blocked)
    (orderly : Orderly s i) : Inv (s.event t i) := by
  cases i with
  | advance d => exact inv.advance one orderly
  | call g =>
      rw [State.event]
      split_ifs with user
      · refine inv.goto one (by rw [user.1]; rfl) (.plain rfl) (fun within => ?_) (by simp)
        cases g <;> first | exact absurd rfl user.2 | cases within
      · exact inv
  | yield tid => exact inv.yield one acts tid
  | makeRunnable tid =>
      rw [State.event]
      split_ifs
      · exact inv.makeRunnable one tid
      · exact inv
  | fault handled =>
      rw [State.event]
      by_cases faults : s.faults t = true
      · have idle : (s.pc t).builds = none := by
          simp only [State.faults, Bool.decide_or, Bool.or_eq_true, decide_eq_true_eq] at faults
          rcases faults with place | place | place | place <;> (rw [place]; rfl)
        rw [if_pos faults]
        refine inv.goto one idle (.plain ?_) ?_ ?_ <;> cases handled <;> simp [Pc.plain, Pc.inside]
      · rwa [if_neg faults]
  | timer => exact inv.handleTimer one acts
  | keyboard => exact inv.handleKeyboard one acts

theorem Inv.step (inv : Inv s) (orderly : Orderly s i) : Inv (step s i) := by
  rw [Dispatch.step]
  cases running : s.running with
  | none => exact inv
  | some t =>
      have one := inv.one running
      cases i with
      | advance d => exact inv.advance one orderly
      | _ =>
          dsimp only
          split_ifs with place
          · exact inv
          · exact inv.event one place orderly

/-! ### Whole runs -/

/-- The lists at the start. -/
def bootRows : Threads where
  tcb := boot.live.tcb
  lists i := if i = .state .running then [0] else if i = .state .ready then [1] else []

theorem boot_listed : boot.Listed t ↔ t < 2 := by
  constructor
  · exact fun listed => listed.1.made
  · refine fun lt => ⟨⟨lt, rfl, ?_⟩, ?_⟩
    · rintro ⟨u, builds⟩
      cases builds
    · change (if t = 0 then ThreadState.running else .ready) ≠ .terminated
      split_ifs <;> simp

theorem boot_listIdx :
    (bootRows.tcb t).listIdx = if t = 0 then .state .running else .state .ready := by
  change Tcb.listIdx ⟨t, t, if t = 0 then .running else .ready, .deschedule⟩ = _
  split_ifs <;> simp [Tcb.listIdx]

theorem lined_boot : Lined bootRows boot.Listed := by
  have lists : ∀ i, bootRows.lists i = [] ∨ ∃ t, bootRows.lists i = [t] := by
    intro i
    rw [bootRows]
    dsimp only
    split_ifs
    · exact .inr ⟨0, rfl⟩
    · exact .inr ⟨1, rfl⟩
    · exact .inl rfl
  refine ⟨fun i => ?_, fun i t => ?_, fun t listed => ?_, fun x y z three => ?_, fun t mem => ?_⟩
  · rcases lists i with list | ⟨t, list⟩ <;> simp [list]
  · rw [boot_listed, boot_listIdx, bootRows]
    dsimp only
    constructor
    · intro mem
      split_ifs at mem with runs ready
      · obtain rfl := List.mem_singleton.mp mem
        simp [runs]
      · obtain rfl := List.mem_singleton.mp mem
        simp [ready]
      · cases mem
    · rintro ⟨lt, rfl⟩
      by_cases first : t = 0
      · simp [first]
      · have last : t = 1 := Nat.le_antisymm (Nat.le_of_lt_succ lt) (Nat.pos_of_ne_zero first)
        simp [last]
  · change (if t = 0 then ThreadState.running else .ready) ≠ .new ∧
      (if t = 0 then ThreadState.running else .ready) ≠ .terminated
    split_ifs <;> simp
  · have long := three.length_le
    rcases lists (.state .ready) with list | ⟨t, list⟩ <;> simp [list] at long
  · rcases lists (.reason .readline) with list | ⟨u, list⟩ <;> simp [list] at mem

theorem shows_boot : boot.live.Shows bootRows := by
  refine ⟨rfl, fun i => ?_, fun i => ?_⟩
  · rw [bootRows]
    dsimp only
    split_ifs
    · exact Links.ring_cons_iff.mpr ⟨by simp, by simp, rfl, rfl⟩
    · exact Links.ring_cons_iff.mpr ⟨by simp, by simp, rfl, rfl⟩
    · trivial
  · rw [bootRows, boot]
    dsimp only
    split_ifs <;> rfl

theorem regions_boot : Regions boot where
  holders := by simp [boot, Pc.holds]
  unlocks := by simp [boot]
  fresh t late := by
    refine ⟨rfl, ?_, rfl⟩
    change (if t = 0 then ThreadState.running else .ready) ≠ .terminated
    split_ifs <;> simp
  tcbs p u mem := by
    change u ∈ if p < 2 then [p] else [] at mem
    split_ifs at mem with known
    · obtain rfl := List.mem_singleton.mp mem
      exact ⟨known, rfl, rfl⟩
    · cases mem
  nodup p := by
    change (if p < 2 then [p] else []).Nodup
    split_ifs <;> simp
  housed u goesOn := by
    refine ⟨?_, rfl⟩
    change u ∈ if u < 2 then [u] else []
    rw [if_pos (show u < 2 from goesOn.made)]
    exact List.mem_singleton_self u
  procs := ⟨fun t lt => lt, fun p late => ⟨if_neg (Nat.not_lt.mpr late), rfl⟩⟩
  builders := by simp [boot, Pc.builds]
  builder := by simp [boot, Pc.builds]
  made := by simp [boot]
  children := by simp [boot, Pc.child]
  forker := by simp [boot, Pc.child]
  pushed := by simp [boot]
  forked := by simp [boot]
  freed := by simp [boot]

theorem readers_boot : Readers boot where
  alone := by simp [boot, Pc.inside]
  free := by simp [boot, Pc.inside]
  first t listed idx := by
    rw [show (boot.tcb t).listIdx = _ from boot_listIdx] at idx
    split_ifs at idx
  blocked := by simp [boot]

theorem ends_boot : Ends boot where
  inv := Drain.inv_boot
  ended t := by
    change (false = true) ↔ (if t = 0 then ThreadState.running else .ready) = .terminated
    split_ifs <;> simp
  apart t u _ _ _ _ same := same
  stale u mem := by cases mem

theorem inv_boot : Inv boot := by
  refine ⟨⟨bootRows, shows_boot, lined_boot⟩, ⟨0, boot_listed.mpr (by decide), rfl, ?_⟩,
    regions_boot, readers_boot, ends_boot⟩
  intro u listed runs
  change (if u = 0 then ThreadState.running else .ready) = .running at runs
  split_ifs at runs with first
  exact first

/-- The nodes of a list, from its head on. -/
def State.row (s : State) (i : ListIdx) : List Thread :=
  if i = .state .terminated then s.drain.visited else s.live.nodes s.made i

/-- What holds of the lists. A thread is in a list when a node of it is for a TCB at the
address of its own. -/
structure Arranged (s : State) : Prop where
  ring : ∀ i, i ≠ .state .terminated →
    s.live.links.Ring (s.row i) ∧ s.live.threadLists i = (s.row i).head?
  states : ∀ i, ∀ u ∈ s.row i, (s.tcb u).listIdx = i
  kept : ∀ t, s.Listed t → s.tcbFreed t = false ∧ s.pcbFreed (s.tcb t).pcb = false
  own : ∀ t, s.Listed t → ∀ i,
    ((s.row i).map s.address).count (s.address t) = if i = (s.tcb t).listIdx then 1 else 0
  ended : ∀ t, s.Counts t → (s.tcb t).state = .terminated → ∀ i, i ≠ .state .terminated →
    s.address t ∉ (s.row i).map s.address
  one : ∃ r, s.Listed r ∧ s.row (.state .running) = [r]
  grouped : Groups.Grouped (fun u => (s.tcb u).pcb) (s.row (.state .ready))
  first : ∀ u ∈ (s.row (.reason .readline)).tail, (s.tcb u).detail.firstReader = false

/-- An element is as often in a list as its image, if no other has that one. -/
theorem count_map {α β : Type} [DecidableEq α] [DecidableEq β] {f : α → β} {a : α} {l : List α}
    (own : ∀ b ∈ l, f b = f a → b = a) : (l.map f).count (f a) = l.count a := by
  induction l with
  | nil => rfl
  | cons b l ih =>
      have rest := ih fun c mem => own c (List.mem_cons_of_mem b mem)
      by_cases same : b = a
      · subst same
        simp [rest]
      · have other : f b ≠ f a := fun eq => same (own b List.mem_cons_self eq)
        simp [rest, same, other]

theorem Inv.arranged (inv : Inv s) : Arranged s := by
  obtain ⟨k, shows, lined⟩ := inv.rows
  have row : ∀ i, i ≠ .state .terminated → s.row i = k.lists i := by
    intro i other
    rw [State.row, if_neg other, shows.nodes (Rows.enough lined)]
  have ended : ∀ u ∈ s.row (.state .terminated), (s.tcb u).state = .terminated := by
    intro u mem
    rw [State.row, if_pos rfl] at mem
    obtain ⟨l, pc, h⟩ := inv.ends.inv
    rw [h.visited_eq] at mem
    exact (inv.ends.ended u).mp (h.good u mem).1
  have tcb : ∀ u, s.tcb u = k.tcb u := fun u => congrFun shows.tcb u
  have apart : ∀ t u, s.Counts t → s.Counts u → s.address t = s.address u → t = u :=
    fun t u ht hu => inv.ends.apart t u ht.made hu.made ht.kept hu.kept
  refine ⟨fun i other => ?_, fun i u mem => ?_, fun t listed => ?_, fun t listed i => ?_,
    fun t counts gone i other mem => ?_, ?_, ?_, ?_⟩
  · rw [row i other]
    exact ⟨shows.ring i, shows.head i⟩
  · by_cases last : i = .state .terminated
    · subst last
      simp [Tcb.listIdx, ended u mem]
    · rw [row i last] at mem
      rw [tcb]
      exact ((lined.mem i u).mp mem).2
  · exact ⟨listed.1.kept, (inv.regions.housed t listed.goesOn).2⟩
  · by_cases last : i = .state .terminated
    · subst last
      have other : (s.tcb t).listIdx ≠ .state .terminated := by
        intro idx
        rw [Tcb.listIdx] at idx
        split_ifs at idx
        exact listed.2 (by simpa using idx)
      rw [if_neg other.symm, List.count_eq_zero]
      intro mem
      obtain ⟨u, mem, same⟩ := List.mem_map.mp mem
      refine inv.ends.stale u (by simpa [State.row] using mem) t listed.1.made listed.1.kept ?_ same.symm
      rintro rfl
      exact listed.2 (ended t mem)
    · rw [row i last, count_map fun u mem => apart u t ((lined.mem i u).mp mem).1.1 listed.1]
      split_ifs with idx
      · refine List.count_eq_one_of_mem (lined.nodup i) ((lined.mem i t).mpr ⟨listed, ?_⟩)
        rw [idx, tcb]
      · refine List.count_eq_zero.mpr fun mem => idx ?_
        rw [tcb]
        exact ((lined.mem i t).mp mem).2.symm
  · rw [row i other] at mem
    obtain ⟨u, mem, same⟩ := List.mem_map.mp mem
    have lu := ((lined.mem i u).mp mem).1
    obtain rfl := apart u t lu.1 counts same
    exact lu.2 gone
  · obtain ⟨r, one⟩ := inv.running
    refine ⟨r, one.listed, ?_⟩
    rw [row _ (by simp)]
    have idx : ∀ u, (k.tcb u).listIdx = .state .running ↔ (s.tcb u).state = .running :=
      fun u => by rw [← tcb, listIdx_running]
    exact lined.singleton ⟨one.listed, (idx r).mpr one.running⟩ fun u lu runs =>
      one.only u lu ((idx u).mp runs)
  · rw [row _ (by simp)]
    simp only [tcb]
    exact lined.grouped
  · rw [row _ (by simp)]
    simp only [tcb]
    exact lined.first

theorem arranged_along (is : List Input) (orderly : Run.StepsMeet step Orderly boot is) :
    Run.Along step Arranged boot is :=
  Run.along_of_stepsMeet (I := Inv) (fun _ => Inv.arranged) (fun _ _ => Inv.step) inv_boot orderly

/-- A test for `Orderly`, by steps that do not use the list of terminated threads. -/
def State.check (s : State) : Input → Bool
  | .advance d => s.running.all fun t => match s.pc t with
    | .locked .taskVanish | .vanishing _ | .drain => false
    | .locked .threadFork => d.address ∉ s.drain.visited.map s.address
    | .pushed c | .forked c _ => s.Back t c
    | .copying c => d.address ∉ s.drain.visited.map s.address ∧ s.Back t c
    | _ => true
  | _ => true

theorem orderly_of_check (checked : s.check i = true) : Orderly s i := by
  cases i with
  | advance d =>
      intro t running
      rw [State.check, running, Option.all_some] at checked
      cases place : s.pc t with
      | locked g =>
          rw [place] at checked
          cases g with
          | taskVanish => cases checked
          | threadFork =>
              change d.address ∉ s.drain.visited.map s.address
              exact of_decide_eq_true checked
          | _ => trivial
      | vanishing alive =>
          rw [place] at checked
          cases checked
      | drain =>
          rw [place] at checked
          cases checked
      | copying c =>
          rw [place] at checked
          obtain ⟨away, back⟩ := of_decide_eq_true checked
          exact ⟨away, fun _ => back⟩
      | pushed c =>
          rw [place] at checked
          change s.Back t c
          exact of_decide_eq_true checked
      | forked c x =>
          rw [place] at checked
          exact fun _ => of_decide_eq_true checked
      | _ => trivial
  | _ => trivial

/-- The root is preempted, and the first process forks and is preempted, too. -/
def forkRun : List Input :=
  let d : Data := { success := true, parent := 0, address := 2, tid := 2 }
  [.timer, .call .fork] ++ List.replicate 7 (.advance d) ++ [.timer, .timer]

theorem arranged_along_fork : Run.Along step Arranged boot forkRun ∧
    (Run.run step boot forkRun).running = some 2 := by
  refine ⟨arranged_along forkRun ?_, by decide +kernel⟩
  have checked : Run.StepsMeet step (fun s i => s.check i = true) boot forkRun := by decide +kernel
  exact checked.mono fun s i => orderly_of_check

/-- Nobody else is inside while a thread is, and a reader that was waiting for the lock finds
it free when it goes on, and nobody inside. -/
theorem readers_alone_along (is : List Input) (orderly : Run.StepsMeet step Orderly boot is) :
    Run.Along step (fun s =>
      (∀ t u, (s.pc t).inside = true → (s.pc u).inside = true → t = u) ∧
        ∀ r, s.running = some r → s.pc r = .blocked →
          s.inputLocked = false ∧ ∀ u, (s.pc u).inside = false) boot is := by
  refine Run.along_of_stepsMeet (I := Inv) (fun s inv => ⟨inv.readers.alone, fun r running place => ?_⟩)
    (fun _ _ => Inv.step) inv_boot orderly
  have open' := inv.readers.turn (inv.one running) place
  exact ⟨open', inv.readers.free open'⟩

/-- The child reads, the first process waits for the lock, and the child is done. -/
def readRun : List Input :=
  let d : Data := { success := true, parent := 0, address := 2, tid := 2 }
  let enters : List Input := [.call .enterReadline, .advance d, .advance d]
  forkRun ++ enters ++ [.advance d, .timer] ++ enters ++ [.timer, .advance d]

theorem readers_alone_along_read :
    Run.Along step (fun s =>
      (∀ t u, (s.pc t).inside = true → (s.pc u).inside = true → t = u) ∧
        ∀ r, s.running = some r → s.pc r = .blocked →
          s.inputLocked = false ∧ ∀ u, (s.pc u).inside = false) boot readRun ∧
      (Run.run step boot readRun).running = some 1 ∧ (Run.run step boot readRun).pc 1 = .blocked := by
  refine ⟨readers_alone_along readRun ?_, by decide +kernel, by decide +kernel⟩
  have checked : Run.StepsMeet step (fun s i => s.check i = true) boot readRun := by decide +kernel
  exact checked.mono fun s i => orderly_of_check

end OsKernel.Dispatch
