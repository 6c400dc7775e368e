/-
What the threads know of the processes, under each thing that a thread does.

A thread that goes on knows what its new place asks for (`Placed`); who sets up a thread goes
on to `made` or `forked` by `Regions.make`, and with `Regions.goto` the new thread counts. The
other rules are one for each table: the owners of the locks, the processes, and the lists of
TCBs, from which only the thread that may look at them takes something.
-/

import OsKernel.Dispatch.Moves

namespace OsKernel.Dispatch

open OsKernel.Sched

variable {s s' : State} {t u x : Thread} {p c : Nat} {pc : Pc} {d : Data} {l : List Thread}

/-! ### The next place -/

/-- A place where a thread may go on, without a thread that it sets up. -/
structure Placed (s : State) (t : Thread) (pc : Pc) : Prop where
  builds : pc.builds = none
  holder : pc.holds = true → s.owner (s.tcb t).pcb = some t
  unlocks : ∀ next, pc = .unlock next → next.plain = true ∧ next ≠ .blocked
  child : ∀ c, pc.child = some c → s.Private c ∧ s.tcbList c = [] ∧ (s.pc t).builds = none ∧
    ∀ u, (s.pc u).child = some c → u = t
  freed : ∀ l, pc = .freeTcbs l →
    ∀ u ∈ l, (s.tcb u).state = .terminated ∧ ∀ p, u ∉ s.tcbList p

theorem Placed.plain (plain : pc.plain = true) : Placed s t pc := by
  constructor <;> cases pc <;> simp_all [Pc.plain, Pc.builds, Pc.holds, Pc.child]

theorem Placed.unlock {next : Pc} (held : s.owner (s.tcb t).pcb = some t)
    (plain : next.plain = true) (acts : next ≠ .blocked) : Placed s t (.unlock next) where
  builds := rfl
  holder _ := held
  unlocks n same := by
    cases same
    exact ⟨plain, acts⟩
  child c h := by cases h
  freed l h := by cases h

/-- To a region, or on in one. -/
theorem Placed.held (held : s.owner (s.tcb t).pcb = some t)
    (place : (∃ r, pc = .locked r) ∨ ∃ n, pc = .vanishing n) : Placed s t pc := by
  obtain ⟨r, rfl⟩ | ⟨n, rfl⟩ := place <;>
    exact ⟨rfl, fun _ => held, by simp, by simp [Pc.child], by simp⟩

@[simp] theorem goto_pc_self : (s.goto t pc).pc t = pc := Function.update_self ..

theorem goto_pc_other (other : u ≠ t) : (s.goto t pc).pc u = s.pc u :=
  Function.update_of_ne other ..

/-- Who counts after a step has counted, or was just set up. -/
theorem counts_of_goto (counts : (s.goto t pc).Counts u) :
    s.Counts u ∨ (s.pc t).builds = some u := by
  by_cases own : (s.pc t).builds = some u
  · exact .inr own
  · refine .inl ⟨counts.made, counts.kept, ?_⟩
    rintro ⟨v, builds⟩
    have other : v ≠ t := by
      rintro rfl
      exact own builds
    exact counts.built ⟨v, by rwa [goto_pc_other other]⟩

theorem Regions.goto (regions : Regions s) (counts : s.Counts t) (placed : Placed s t pc)
    (apart : ∀ x, (s.pc t).builds = some x → ∀ u c, u ≠ t → (s.pc u).child = some c →
      (s.tcb x).pcb ≠ c) : Regions (s.goto t pc) := by
  have cases : ∀ u, u = t ∧ (s.goto t pc).pc u = pc ∨ u ≠ t ∧ (s.goto t pc).pc u = s.pc u := by
    intro u
    by_cases self : u = t
    · exact .inl ⟨self, self ▸ goto_pc_self⟩
    · exact .inr ⟨self, goto_pc_other self⟩
  have idle : ∀ u x, (s.goto t pc).pc u = .made x ∨ (∃ c, (s.goto t pc).pc u = .forked c x) →
      u ≠ t ∧ (s.goto t pc).pc u = s.pc u := by
    rintro u x place
    rcases cases u with ⟨-, here⟩ | other
    · have builds := placed.builds
      rw [← here] at builds
      rcases place with place | ⟨c, place⟩ <;> · rw [place] at builds; cases builds
    · exact other
  refine ⟨fun u held => ?_, fun u next place => ?_, fun u late => ?_, regions.tcbs, regions.nodup,
    fun u goesOn => regions.housed u ⟨goesOn.made, goesOn.kept, goesOn.lives⟩, regions.procs,
    fun u x builds => ?_, fun u v x builds builds' => ?_, fun u x place => ?_,
    fun u c child => ⟨?_, ?_, fun v here => ?_⟩, fun u v c child child' => ?_, fun u c place => ?_,
    fun u c x place => ?_, fun u l place => ?_⟩
  · rcases cases u with ⟨rfl, here⟩ | ⟨-, here⟩ <;> rw [here] at held
    · exact placed.holder held
    · exact regions.holders u held
  · rcases cases u with ⟨rfl, here⟩ | ⟨-, here⟩ <;> rw [here] at place
    · exact placed.unlocks next place
    · exact regions.unlocks u next place
  · have other : u ≠ t := by
      rintro rfl
      exact Nat.lt_irrefl _ (Nat.lt_of_lt_of_le counts.made late)
    rw [goto_pc_other other]
    exact regions.fresh u late
  · rcases cases u with ⟨rfl, here⟩ | ⟨-, here⟩ <;> rw [here] at builds
    · rw [placed.builds] at builds
      cases builds
    · have other : x ≠ t := by
        rintro rfl
        exact counts.built ⟨u, builds⟩
      rw [goto_pc_other other]
      exact regions.builders u x builds
  · have old : ∀ w, ((s.goto t pc).pc w).builds = some x → (s.pc w).builds = some x := by
      intro w builds
      rcases cases w with ⟨rfl, here⟩ | ⟨-, here⟩ <;> rw [here] at builds
      · rw [placed.builds] at builds
        cases builds
      · exact builds
    exact regions.builder u v x (old u builds) (old v builds')
  · obtain ⟨-, here⟩ := idle u x (.inl place)
    exact regions.made u x (here ▸ place)
  · rcases cases u with ⟨rfl, here⟩ | ⟨-, here⟩ <;> rw [here] at child
    · exact (placed.child c child).1.pushed
    · exact (regions.children u c child).pushed
  · rcases cases u with ⟨rfl, here⟩ | ⟨-, here⟩ <;> rw [here] at child
    · exact (placed.child c child).1.kept
    · exact (regions.children u c child).kept
  · rcases cases u with ⟨rfl, place⟩ | ⟨other, place⟩ <;> rw [place] at child
    · obtain ⟨priv, -, none, -⟩ := placed.child c child
      rcases counts_of_goto here with old | new
      · exact priv.empty v old
      · rw [none] at new
        cases new
    · rcases counts_of_goto here with old | new
      · exact (regions.children u c child).empty v old
      · exact apart v new u c other child
  · rcases cases u with ⟨rfl, here⟩ | ⟨-, here⟩
    · rcases cases v with ⟨rfl, -⟩ | ⟨-, here'⟩
      · rfl
      · rw [here] at child
        rw [here'] at child'
        exact ((placed.child c child).2.2.2 v child').symm
    · rw [here] at child
      rcases cases v with ⟨rfl, here'⟩ | ⟨-, here'⟩ <;> rw [here'] at child'
      · exact (placed.child c child').2.2.2 u child
      · exact regions.forker u v c child child'
  · rcases cases u with ⟨rfl, here⟩ | ⟨-, here⟩ <;> rw [here] at place
    · exact (placed.child c (by rcases place with rfl | rfl <;> rfl)).2.1
    · exact regions.pushed u c place
  · obtain ⟨-, here⟩ := idle u x (.inr ⟨c, place⟩)
    exact regions.forked u c x (here ▸ place)
  · rcases cases u with ⟨rfl, here⟩ | ⟨-, here⟩ <;> rw [here] at place
    · exact placed.freed l place
    · exact regions.freed u l place

/-- A thread that sets up nothing goes on. -/
theorem Regions.go (regions : Regions s) (counts : s.Counts t) (idle : (s.pc t).builds = none)
    (placed : Placed s t pc) : Regions (s.goto t pc) :=
  regions.goto counts placed fun x builds => by rw [idle] at builds; cases builds

/-! ### Tables -/

/-- The lock of a process is taken or released, by a thread outside of its region. -/
theorem Regions.owned (regions : Regions s) (o : Option Thread)
    (only : ∀ u, (s.pc u).holds = true → (s.tcb u).pcb ≠ p) :
    Regions { s with owner := Function.update s.owner p o } where
  holders u held := by
    change Function.update s.owner p o (s.tcb u).pcb = some u
    rw [Function.update_of_ne (only u held)]
    exact regions.holders u held
  unlocks := regions.unlocks
  fresh := regions.fresh
  tcbs := regions.tcbs
  nodup := regions.nodup
  housed u goesOn := regions.housed u ⟨goesOn.made, goesOn.kept, goesOn.lives⟩
  procs := regions.procs
  builders := regions.builders
  builder := regions.builder
  made := regions.made
  children u c child :=
    ⟨(regions.children u c child).pushed, (regions.children u c child).kept, fun v counts =>
      (regions.children u c child).empty v ⟨counts.made, counts.kept, counts.built⟩⟩
  forker := regions.forker
  pushed := regions.pushed
  forked := regions.forked
  freed := regions.freed

theorem Regions.release (regions : Regions s) (held : s.owner (s.tcb t).pcb = some t)
    (left : (s.pc t).holds = false) : Regions (s.release t) := by
  refine regions.owned none fun u holds same => ?_
  have owner := regions.holders u holds
  rw [same, held, Option.some.injEq] at owner
  rw [← owner, left] at holds
  cases holds

theorem Regions.acquire (regions : Regions s) (free : s.owner (s.tcb t).pcb = none) :
    Regions (s.acquire t) := by
  refine regions.owned (some t) fun u holds same => ?_
  have owner := regions.holders u holds
  rw [same, free] at owner
  cases owner

/-- `input_lock` is no lock of a process. -/
theorem Regions.input (regions : Regions s) (locked : Bool) :
    Regions { s with inputLocked := locked } where
  holders := regions.holders
  unlocks := regions.unlocks
  fresh := regions.fresh
  tcbs := regions.tcbs
  nodup := regions.nodup
  housed u goesOn := regions.housed u ⟨goesOn.made, goesOn.kept, goesOn.lives⟩
  procs := regions.procs
  builders := regions.builders
  builder := regions.builder
  made := regions.made
  children u c child :=
    ⟨(regions.children u c child).pushed, (regions.children u c child).kept, fun v counts =>
      (regions.children u c child).empty v ⟨counts.made, counts.kept, counts.built⟩⟩
  forker := regions.forker
  pushed := regions.pushed
  forked := regions.forked
  freed := regions.freed

/-- A new process, and other children. -/
theorem Regions.grown (regions : Regions s) {procs : Nat} (more : s.procs ≤ procs)
    (children : Nat → List Nat) : Regions { s with procs := procs, children := children } where
  holders := regions.holders
  unlocks := regions.unlocks
  fresh := regions.fresh
  tcbs := regions.tcbs
  nodup := regions.nodup
  housed u goesOn := regions.housed u ⟨goesOn.made, goesOn.kept, goesOn.lives⟩
  procs := ⟨fun u made => Nat.lt_of_lt_of_le (regions.procs.1 u made) more,
    fun p late => regions.procs.2 p (Nat.le_trans more late)⟩
  builders := regions.builders
  builder := regions.builder
  made := regions.made
  children u c child :=
    ⟨Nat.lt_of_lt_of_le (regions.children u c child).pushed more,
      (regions.children u c child).kept, fun v counts =>
      (regions.children u c child).empty v ⟨counts.made, counts.kept, counts.built⟩⟩
  forker := regions.forker
  pushed := regions.pushed
  forked := regions.forked
  freed := regions.freed

/-- The PCB of a process is freed that has no thread, not even one that is being set up. -/
theorem Regions.freePcb (regions : Regions s) (known : c < s.procs)
    (empty : ∀ u ∈ s.tcbList c, (s.tcb u).state = .terminated)
    (apart : ∀ u, (s.pc u).child ≠ some c) : Regions (s.freePcb c) := by
  have other : ∀ q, q ≠ c → (s.freePcb c).pcbFreed q = s.pcbFreed q :=
    fun q ne => Function.update_of_ne ne ..
  exact {
    holders := regions.holders
    unlocks := regions.unlocks
    fresh := regions.fresh
    tcbs := regions.tcbs
    nodup := regions.nodup
    housed := fun u goesOn => by
      obtain ⟨mem, kept⟩ := regions.housed u ⟨goesOn.made, goesOn.kept, goesOn.lives⟩
      refine ⟨mem, (other (s.tcb u).pcb fun same => ?_).trans kept⟩
      exact goesOn.lives (empty u (same ▸ mem))
    procs := ⟨regions.procs.1, fun q late => ⟨(regions.procs.2 q late).1,
      (other q (Nat.ne_of_gt (Nat.lt_of_lt_of_le known late))).trans (regions.procs.2 q late).2⟩⟩
    builders := regions.builders
    builder := regions.builder
    made := regions.made
    children := fun u q child => by
      obtain ⟨pushed, kept, empty⟩ := regions.children u q child
      refine ⟨pushed, (other q ?_).trans kept, fun v counts =>
        empty v ⟨counts.made, counts.kept, counts.built⟩⟩
      rintro rfl
      exact apart u child
    forker := regions.forker
    pushed := regions.pushed
    forked := regions.forked
    freed := regions.freed }

/-- TCBs leave the list of a process that no other thread relies on: those of terminated
threads, and those that are freed at once. -/
theorem Regions.shrink (regions : Regions s) (sub : l.Sublist (s.tcbList p)) {tcbFreed : Thread → Bool}
    (kept : ∀ u, tcbFreed u = s.tcbFreed u ∨ u ∈ s.tcbList p ∧ u ∉ l)
    (gone : ∀ u ∈ s.tcbList p, u ∉ l → tcbFreed u = false → (s.tcb u).state = .terminated)
    (made : ∀ u x, s.pc u = .made x → (s.tcb u).pcb ≠ p)
    (forked : ∀ u c x, s.pc u = .forked c x → c ≠ p) :
    Regions { s with tcbList := Function.update s.tcbList p l, tcbFreed := tcbFreed } := by
  have lists : ∀ q, (Function.update s.tcbList p l q).Sublist (s.tcbList q) := by
    intro q
    by_cases own : q = p
    · subst own
      rwa [Function.update_self]
    · rw [Function.update_of_ne own]
  have empty : ∀ q, s.tcbList q = [] → Function.update s.tcbList p l q = [] :=
    fun q none => List.sublist_nil.mp (none ▸ lists q)
  have old : ∀ u, tcbFreed u = false → s.tcbFreed u = false := by
    intro u here
    rcases kept u with same | ⟨mem, -⟩
    · exact same ▸ here
    · exact (regions.tcbs p u mem).2.1
  exact {
    holders := regions.holders
    unlocks := regions.unlocks
    fresh := fun u late => by
      obtain ⟨user, goesOn, here⟩ := regions.fresh u late
      refine ⟨user, goesOn, ?_⟩
      rcases kept u with same | ⟨mem, -⟩
      · exact same.trans here
      · exact absurd (regions.tcbs p u mem).1 (Nat.not_lt.mpr late)
    tcbs := fun q u mem => by
      obtain ⟨lt, here, pcb⟩ := regions.tcbs q u ((lists q).subset mem)
      refine ⟨lt, ?_, pcb⟩
      rcases kept u with same | ⟨inList, out⟩
      · exact same.trans here
      · obtain rfl := (regions.tcbs p u inList).2.2.symm.trans pcb
        change u ∈ Function.update s.tcbList p l p at mem
        rw [Function.update_self] at mem
        exact absurd mem out
    nodup := fun q => (regions.nodup q).sublist (lists q)
    housed := fun u goesOn => by
      obtain ⟨mem, pcb⟩ := regions.housed u ⟨goesOn.made, old u goesOn.kept, goesOn.lives⟩
      refine ⟨?_, pcb⟩
      change u ∈ Function.update s.tcbList p l (s.tcb u).pcb
      by_cases own : (s.tcb u).pcb = p
      · rw [own] at mem ⊢
        rw [Function.update_self]
        by_contra out
        exact goesOn.lives (gone u mem out goesOn.kept)
      · rwa [Function.update_of_ne own]
    procs := ⟨regions.procs.1, fun q late =>
      ⟨empty q (regions.procs.2 q late).1, (regions.procs.2 q late).2⟩⟩
    builders := regions.builders
    builder := regions.builder
    made := fun u x place => by
      change _ ∧ (Function.update s.tcbList p l (s.tcb u).pcb).getLast? = some x
      rw [Function.update_of_ne (made u x place)]
      exact regions.made u x place
    children := fun u c child =>
      ⟨(regions.children u c child).pushed, (regions.children u c child).kept, fun v counts =>
        (regions.children u c child).empty v ⟨counts.made, old v counts.kept, counts.built⟩⟩
    forker := regions.forker
    pushed := fun u c place => empty c (regions.pushed u c place)
    forked := fun u c x place => by
      change Function.update s.tcbList p l c = [x]
      rw [Function.update_of_ne (forked u c x place)]
      exact regions.forked u c x place
    freed := fun u l place v mem =>
      ⟨(regions.freed u l place v mem).1, fun q inList =>
        (regions.freed u l place v mem).2 q ((lists q).subset inList)⟩ }

theorem kept_of_freeTcb (kept : (s.freeTcb x).tcbFreed u = false) : s.tcbFreed u = false := by
  change Function.update s.tcbFreed x true u = false at kept
  rw [Function.update_apply] at kept
  split_ifs at kept
  exact kept

/-- A TCB that is in no list is freed. -/
theorem Regions.free (regions : Regions s) (old : x < s.made) (out : ∀ p, x ∉ s.tcbList p) :
    Regions (s.freeTcb x) where
  holders := regions.holders
  unlocks := regions.unlocks
  fresh u late := by
    obtain ⟨user, goesOn, kept⟩ := regions.fresh u late
    refine ⟨user, goesOn, ?_⟩
    change Function.update s.tcbFreed x true u = false
    rwa [Function.update_of_ne (Nat.ne_of_gt (Nat.lt_of_lt_of_le old late))]
  tcbs q u mem := by
    have other : u ≠ x := by
      rintro rfl
      exact out q mem
    obtain ⟨made, kept, pcb⟩ := regions.tcbs q u mem
    refine ⟨made, ?_, pcb⟩
    change Function.update s.tcbFreed x true u = false
    rwa [Function.update_of_ne other]
  nodup := regions.nodup
  housed u goesOn := regions.housed u ⟨goesOn.made, kept_of_freeTcb goesOn.kept, goesOn.lives⟩
  procs := regions.procs
  builders := regions.builders
  builder := regions.builder
  made := regions.made
  children u c child :=
    ⟨(regions.children u c child).pushed, (regions.children u c child).kept, fun v counts =>
      (regions.children u c child).empty v
        ⟨counts.made, kept_of_freeTcb counts.kept, counts.built⟩⟩
  forker := regions.forker
  pushed := regions.pushed
  forked := regions.forked
  freed := regions.freed

/-! ### A new TCB -/

/-- Thread `t` has made a TCB for process `p`, whose list of TCBs has become `l`, and goes on
to set it up. -/
structure Makes (s s' : State) (t : Thread) (p : Nat) (l : List Thread) (pc : Pc) : Prop where
  here : s'.pc t = pc
  elsewhere : ∀ u, u ≠ t → s'.pc u = s.pc u
  old : ∀ u, u ≠ s.made → s'.tcb u = s.tcb u
  new : (s'.tcb s.made).pcb = p ∧ (s'.tcb s.made).state = .ready
  list : s'.tcbList p = l
  lists : ∀ q, q ≠ p → s'.tcbList q = s.tcbList q
  made : s'.made = s.made + 1
  freed : s'.tcbFreed = s.tcbFreed
  owner : s'.owner = s.owner
  procs : s'.procs = s.procs
  pcbFreed : s'.pcbFreed = s.pcbFreed

theorem makes (s : State) (t : Thread) (p : Nat) (d : Data) (l : List Thread) (pc : Pc) :
    Makes s ((s.make t p d l).goto t pc) t p l pc := by
  have self : ((s.make t p d l).goto t pc).tcb s.made =
      { s.tcb t with pcb := p, tid := d.tid, state := .ready } := Function.update_self ..
  exact {
    here := goto_pc_self
    elsewhere := fun u other => goto_pc_other other
    old := fun u other => Function.update_of_ne other ..
    new := by rw [self]; exact ⟨rfl, rfl⟩
    list := Function.update_self ..
    lists := fun q other => Function.update_of_ne other ..
    made := rfl
    freed := rfl
    owner := rfl
    procs := rfl
    pcbFreed := rfl }

theorem Makes.counts (made : Makes s s' t p l pc) (idle : (s.pc t).builds = none)
    (builds : pc.builds = some s.made) (here : s'.Counts u) : s.Counts u := by
  refine ⟨?_, made.freed ▸ here.kept, ?_⟩
  · have lt := here.made
    rw [made.made] at lt
    refine Nat.lt_of_le_of_ne (Nat.le_of_lt_succ lt) ?_
    rintro rfl
    exact here.built ⟨t, by rw [made.here, builds]⟩
  · rintro ⟨v, builds'⟩
    by_cases self : v = t
    · rw [self, idle] at builds'
      cases builds'
    · exact here.built ⟨v, by rw [made.elsewhere v self, builds']⟩

/-- The lists of TCBs have grown by the new one. -/
theorem Makes.mem_tcbList (made : Makes s s' t p l pc)
    (list : ∀ u, u ∈ l ↔ u = s.made ∨ u ∈ s.tcbList p) (u : Thread) (q : Nat) :
    u ∈ s'.tcbList q ↔ u = s.made ∧ q = p ∨ u ∈ s.tcbList q := by
  by_cases target : q = p
  · subst target
    rw [made.list, list]
    simp
  · rw [made.lists q target]
    simp [target]

/-- A thread that goes on, and is not the new one, went on before. -/
theorem Makes.goesOn (made : Makes s s' t p l pc) (here : s'.GoesOn u) (old : u ≠ s.made) :
    s.GoesOn u := by
  have lt := here.made
  rw [made.made] at lt
  exact ⟨Nat.lt_of_le_of_ne (Nat.le_of_lt_succ lt) old, made.freed ▸ here.kept,
    made.old u old ▸ here.lives⟩

theorem Regions.makes (regions : Regions s) (made : Makes s s' t p l pc) (counts : s.Counts t)
    (idle : (s.pc t).builds = none) (builds : pc.builds = some s.made) (known : p < s.procs)
    (kept : s.pcbFreed p = false)
    (list : ∀ u, u ∈ l ↔ u = s.made ∨ u ∈ s.tcbList p) (nodup : l.Nodup)
    (alone : ∀ u x, u ≠ t → s.pc u = .made x → (s.tcb u).pcb ≠ p)
    (others : ∀ u c, u ≠ t → (s.pc u).child = some c → c ≠ p)
    (own : pc = .made s.made ∧ (s.tcb t).pcb = p ∧ s.owner p = some t ∧
        l.getLast? = some s.made ∨
      pc = .forked p s.made ∧ (s.pc t).child = some p ∧ l = [s.made]) : Regions s' := by
  obtain ⟨user, -, new⟩ := regions.fresh s.made (Nat.le_refl _)
  have acts : ∀ u, s.pc u ≠ .user → u ≠ s.made := by
    rintro u place rfl
    exact place user
  have late : t ≠ s.made := Nat.ne_of_lt counts.made
  have pcb : (s'.tcb t).pcb = (s.tcb t).pcb := by rw [made.old t late]
  have priv : ∀ u c, (s.pc u).child = some c → s'.Private c := by
    intro u c child
    obtain ⟨pushed, kept, empty⟩ := regions.children u c child
    refine ⟨made.procs ▸ pushed, made.pcbFreed ▸ kept, fun v here => ?_⟩
    have old := made.counts idle builds here
    rw [made.old v (Nat.ne_of_lt old.made)]
    exact empty v old
  have child : ∀ u c, (s'.pc u).child = some c → (s.pc u).child = some c := by
    intro u c child
    by_cases self : u = t
    · subst self
      rw [made.here] at child
      rcases own with ⟨rfl, -⟩ | ⟨rfl, child', -⟩
      · cases child
      · obtain rfl : p = c := by simpa [Pc.child] using child
        exact child'
    · rwa [made.elsewhere u self] at child
  exact {
    holders := fun u held => by
      rw [made.owner]
      by_cases self : u = t
      · subst self
        rw [made.here] at held
        rw [pcb]
        rcases own with ⟨-, rfl, owner, -⟩ | ⟨rfl, -⟩
        · exact owner
        · cases held
      · rw [made.elsewhere u self] at held
        rw [made.old u (acts u fun same => by rw [same] at held; cases held)]
        exact regions.holders u held
    unlocks := fun u next place => by
      by_cases self : u = t
      · rw [self, made.here] at place
        rcases own with ⟨rfl, -⟩ | ⟨rfl, -⟩ <;> cases place
      · rw [made.elsewhere u self] at place
        exact regions.unlocks u next place
    fresh := fun u lateU => by
      rw [made.made] at lateU
      have later : s.made < u := lateU
      rw [made.elsewhere u (Nat.ne_of_gt (Nat.lt_trans counts.made later)),
        made.old u (Nat.ne_of_gt later), made.freed]
      exact regions.fresh u (Nat.le_of_lt later)
    tcbs := fun q u mem => by
      rw [made.made, made.freed]
      rcases (made.mem_tcbList list u q).mp mem with ⟨rfl, rfl⟩ | mem
      · exact ⟨Nat.lt_succ_self _, new, made.new.1⟩
      · obtain ⟨lt, kept, pcb⟩ := regions.tcbs q u mem
        rw [made.old u (Nat.ne_of_lt lt)]
        exact ⟨Nat.lt_succ_of_lt lt, kept, pcb⟩
    nodup := fun q => by
      by_cases target : q = p
      · rwa [target, made.list]
      · rw [made.lists q target]
        exact regions.nodup q
    housed := fun u goesOn => by
      rw [made.pcbFreed, made.mem_tcbList list]
      by_cases self : u = s.made
      · rw [self, made.new.1]
        exact ⟨.inl ⟨rfl, rfl⟩, kept⟩
      · rw [made.old u self]
        obtain ⟨mem, house⟩ := regions.housed u (made.goesOn goesOn self)
        exact ⟨.inr mem, house⟩
    procs := by
      refine ⟨fun u lt => ?_, fun q lateQ => ?_⟩
      · rw [made.procs]
        by_cases new : u = s.made
        · rw [new, made.new.1]
          exact known
        · rw [made.old u new]
          rw [made.made] at lt
          exact regions.procs.1 u (Nat.lt_of_le_of_ne (Nat.le_of_lt_succ lt) new)
      · rw [made.procs] at lateQ
        rw [made.lists q (by rintro rfl; omega), made.pcbFreed]
        exact regions.procs.2 q lateQ
    builders := fun u x sets => by
      by_cases self : u = t
      · rw [self, made.here, builds] at sets
        obtain rfl : s.made = x := by simpa using sets
        rw [made.made, made.elsewhere s.made late.symm]
        exact ⟨Nat.lt_succ_self _, made.new.2, user⟩
      · rw [made.elsewhere u self] at sets
        obtain ⟨lt, ready, userX⟩ := regions.builders u x sets
        have other : x ≠ t := by
          rintro rfl
          exact counts.built ⟨u, sets⟩
        rw [made.made, made.old x (Nat.ne_of_lt lt), made.elsewhere x other]
        exact ⟨Nat.lt_succ_of_lt lt, ready, userX⟩
    builder := fun u v x sets sets' => by
      have lone : ∀ w, w ≠ t → (s'.pc w).builds = some x → x ≠ s.made := by
        intro w other setsW
        rw [made.elsewhere w other] at setsW
        exact Nat.ne_of_lt (regions.builders w x setsW).1
      have mine : (s'.pc t).builds = some x → s.made = x := by
        intro setsT
        rw [made.here, builds] at setsT
        simpa using setsT
      by_cases selfU : u = t
      · by_cases selfV : v = t
        · rw [selfU, selfV]
        · exact absurd (mine (selfU ▸ sets)).symm (lone v selfV sets')
      · by_cases selfV : v = t
        · exact absurd (mine (selfV ▸ sets')).symm (lone u selfU sets)
        · rw [made.elsewhere u selfU] at sets
          rw [made.elsewhere v selfV] at sets'
          exact regions.builder u v x sets sets'
    made := fun u x place => by
      by_cases self : u = t
      · subst self
        rw [made.here] at place
        rcases own with ⟨rfl, rfl, -, last⟩ | ⟨rfl, -⟩
        · obtain rfl : s.made = x := by simpa using place
          rw [pcb, made.list]
          exact ⟨made.new.1, last⟩
        · cases place
      · rw [made.elsewhere u self] at place
        have sets : (s.pc u).builds = some x := by rw [place]; rfl
        rw [made.old x (Nat.ne_of_lt (regions.builders u x sets).1),
          made.old u (acts u (by rw [place]; simp)), made.lists _ (alone u x self place)]
        exact regions.made u x place
    children := fun u c here => priv u c (child u c here)
    forker := fun u v c here here' => regions.forker u v c (child u c here) (child v c here')
    pushed := fun u c place => by
      by_cases self : u = t
      · rw [self, made.here] at place
        rcases own with ⟨rfl, -⟩ | ⟨rfl, -⟩ <;> simp at place
      · rw [made.elsewhere u self] at place
        rw [made.lists c (others u c self (by rcases place with h | h <;> (rw [h]; rfl)))]
        exact regions.pushed u c place
    forked := fun u c x place => by
      by_cases self : u = t
      · rw [self, made.here] at place
        rcases own with ⟨rfl, -⟩ | ⟨rfl, -, rfl⟩
        · cases place
        · obtain ⟨rfl, rfl⟩ : p = c ∧ s.made = x := by simpa using place
          exact made.list
      · rw [made.elsewhere u self] at place
        rw [made.lists c (others u c self (by rw [place]; rfl))]
        exact regions.forked u c x place
    freed := fun u fs place v mem => by
      by_cases self : u = t
      · rw [self, made.here] at place
        rcases own with ⟨rfl, -⟩ | ⟨rfl, -⟩ <;> cases place
      · rw [made.elsewhere u self] at place
        obtain ⟨ended, out⟩ := regions.freed u fs place v mem
        have other : v ≠ s.made := by
          rintro rfl
          exact (regions.fresh s.made (Nat.le_refl _)).2.1 ended
        rw [made.old v other]
        refine ⟨ended, fun q inList => out q ?_⟩
        exact ((made.mem_tcbList list v q).mp inList).resolve_left fun new => other new.1 }

/-- Thread `t` gives up the TCB that it set up for process `p`. -/
theorem Regions.unmake (regions : Regions s) (counts : s.Counts t) (builds : (s.pc t).builds = some x)
    (placed : Placed s t pc) (last : (s.tcbList p).getLast? = some x)
    (apart : ∀ u c, u ≠ t → (s.pc u).child = some c → (s.tcb x).pcb ≠ c)
    (alone : ∀ u y, u ≠ t → s.pc u = .made y → (s.tcb u).pcb ≠ p)
    (others : ∀ u c y, u ≠ t → s.pc u = .forked c y → c ≠ p) :
    Regions ((s.unmake p x).goto t pc) := by
  have other : ∀ u, ((s.goto t pc).pc u).builds ≠ none → u ≠ t ∧ (s.goto t pc).pc u = s.pc u := by
    intro u sets
    have ne : u ≠ t := by
      rintro rfl
      rw [goto_pc_self, placed.builds] at sets
      exact sets rfl
    exact ⟨ne, goto_pc_other ne⟩
  have regions₁ := regions.goto counts placed fun y own u c ne child => by
    rw [builds, Option.some.injEq] at own
    exact own ▸ apart u c ne child
  have whole : s.tcbList p = (s.tcbList p).dropLast ++ [x] :=
    (List.dropLast_append_getLast? x last).symm
  have out : x ∉ (s.tcbList p).dropLast := by
    have nodup := regions.nodup p
    rw [whole] at nodup
    exact fun mem => (List.nodup_append.mp nodup).2.2 x mem x (List.mem_singleton_self x) rfl
  have freed : ∀ u, Function.update s.tcbFreed x true u = s.tcbFreed u ∨
      u ∈ s.tcbList p ∧ u ∉ (s.tcbList p).dropLast := by
    intro u
    by_cases self : u = x
    · subst self
      exact .inr ⟨List.mem_of_getLast? last, out⟩
    · exact .inl (Function.update_of_ne self ..)
  refine regions₁.shrink (List.dropLast_sublist _) freed (fun u mem left here => ?_)
    (fun u y place => by
      obtain ⟨ne, same⟩ := other u (by rw [place]; simp [Pc.builds])
      exact alone u y ne (same ▸ place))
    (fun u c y place => by
      obtain ⟨ne, same⟩ := other u (by rw [place]; simp [Pc.builds])
      exact others u c y ne (same ▸ place))
  obtain rfl : u = x := by
    rw [show (s.goto t pc).tcbList p = s.tcbList p from rfl, whole] at mem
    exact List.mem_singleton.mp ((List.mem_append.mp mem).resolve_left left)
  rw [show (s.unmake p u).tcbFreed u = true from Function.update_self ..] at here
  cases here

end OsKernel.Dispatch
