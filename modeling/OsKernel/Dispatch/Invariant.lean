/-
What holds between two steps.

`Rows` ties the links to the states of the threads. The rest is about the threads alone:
`Regions` says what a thread knows that has the lock of its process or that sets up a thread,
`Readers` who is inside of `input_lock`, and `Ends` what the `TERMINATED` list holds.

A thread is listed when its TCB is set up and it is not terminated. `Moves` is the frame of
all operations of the scheduler: they give other states to listed threads, and change nothing
else.
-/

import OsKernel.Dispatch.Machine
import OsKernel.Dispatch.Rows

namespace OsKernel.Dispatch

open OsKernel.Sched

namespace State

/-- A thread that is being set up, by another one. -/
def Building (s : State) (x : Thread) : Prop := ∃ t, (s.pc t).builds = some x

/-- A thread that has a TCB and is set up. -/
structure Counts (s : State) (t : Thread) : Prop where
  made : t < s.made
  kept : s.tcbFreed t = false
  built : ¬ s.Building t

def Listed (s : State) (t : Thread) : Prop := s.Counts t ∧ (s.tcb t).state ≠ .terminated

end State

/-- The lists are well formed and hold the listed threads. -/
def Rows (s : State) : Prop := ∃ k, s.live.Shows k ∧ Lined k s.Listed

/-- Thread `r` is the one that runs. -/
structure One (s : State) (r : Thread) : Prop where
  listed : s.Listed r
  running : (s.tcb r).state = .running
  only : ∀ u, s.Listed u → (s.tcb u).state = .running → u = r

/-- A thread that is not terminated, perhaps one that is being set up. -/
structure State.GoesOn (s : State) (t : Thread) : Prop where
  made : t < s.made
  kept : s.tcbFreed t = false
  lives : (s.tcb t).state ≠ .terminated

/-- A process that has no thread yet, but perhaps one that is being set up. -/
structure State.Private (s : State) (c : Nat) : Prop where
  pushed : c < s.procs
  kept : s.pcbFreed c = false
  empty : ∀ u, s.Counts u → (s.tcb u).pcb ≠ c

structure Regions (s : State) : Prop where
  holders : ∀ t, (s.pc t).holds = true → s.owner (s.tcb t).pcb = some t
  unlocks : ∀ t next, s.pc t = .unlock next → next.plain = true ∧ next ≠ .blocked
  fresh : ∀ t, s.made ≤ t →
    s.pc t = .user ∧ (s.tcb t).state ≠ .terminated ∧ s.tcbFreed t = false
  tcbs : ∀ p, ∀ u ∈ s.tcbList p, u < s.made ∧ s.tcbFreed u = false ∧ (s.tcb u).pcb = p
  nodup : ∀ p, (s.tcbList p).Nodup
  housed : ∀ u, s.GoesOn u → u ∈ s.tcbList (s.tcb u).pcb ∧ s.pcbFreed (s.tcb u).pcb = false
  procs : (∀ t, t < s.made → (s.tcb t).pcb < s.procs) ∧
    ∀ p, s.procs ≤ p → s.tcbList p = [] ∧ s.pcbFreed p = false
  builders : ∀ t x, (s.pc t).builds = some x →
    x < s.made ∧ (s.tcb x).state = .ready ∧ s.pc x = .user
  builder : ∀ t u x, (s.pc t).builds = some x → (s.pc u).builds = some x → t = u
  made : ∀ t x, s.pc t = .made x →
    (s.tcb x).pcb = (s.tcb t).pcb ∧ (s.tcbList (s.tcb t).pcb).getLast? = some x
  children : ∀ t c, (s.pc t).child = some c → s.Private c
  forker : ∀ t u c, (s.pc t).child = some c → (s.pc u).child = some c → t = u
  pushed : ∀ t c, s.pc t = .pushed c ∨ s.pc t = .copying c → s.tcbList c = []
  forked : ∀ t c x, s.pc t = .forked c x → s.tcbList c = [x]
  freed : ∀ t l, s.pc t = .freeTcbs l →
    ∀ u ∈ l, (s.tcb u).state = .terminated ∧ ∀ p, u ∉ s.tcbList p

structure Readers (s : State) : Prop where
  alone : ∀ t u, (s.pc t).inside = true → (s.pc u).inside = true → t = u
  free : s.inputLocked = false → ∀ t, (s.pc t).inside = false
  first : ∀ t, s.Listed t → (s.tcb t).listIdx = .reason .readline →
    (s.tcb t).detail.firstReader = true → (s.pc t).inside = true
  blocked : ∀ t, s.Listed t → s.pc t = .blocked → (s.tcb t).listIdx = .reason .readline ∨
    (s.tcb t).state = .running ∧ s.inputLocked = false

structure Ends (s : State) : Prop where
  inv : Drain.Inv s.drain
  ended : ∀ t, s.drain.terminated t = true ↔ (s.tcb t).state = .terminated
  /-- The TCBs that are not freed lie apart. -/
  apart : ∀ t u, t < s.made → u < s.made → s.tcbFreed t = false → s.tcbFreed u = false →
    s.address t = s.address u → t = u
  /-- No such TCB lies where a node of the `TERMINATED` list points to, unless it is its own. -/
  stale : ∀ u ∈ s.drain.visited, ∀ t, t < s.made → s.tcbFreed t = false → t ≠ u →
    s.address t ≠ s.address u

structure Inv (s : State) : Prop where
  rows : Rows s
  running : ∃ r, One s r
  regions : Regions s
  readers : Readers s
  ends : Ends s

/-- The threads that are listed change their states, and nothing else changes; some of them
may be terminated. -/
structure Moves (s s' : State) : Prop where
  pc : s'.pc = s.pc
  owner : s'.owner = s.owner
  tcbList : s'.tcbList = s.tcbList
  children : s'.children = s.children
  made : s'.made = s.made
  procs : s'.procs = s.procs
  pcbFreed : s'.pcbFreed = s.pcbFreed
  address : s'.address = s.address
  tcbFreed : s'.tcbFreed = s.tcbFreed
  inputLocked : s'.inputLocked = s.inputLocked
  pcb : ∀ u, (s'.tcb u).pcb = (s.tcb u).pcb
  others : ∀ u, ¬ s.Listed u → s'.tcb u = s.tcb u

section
variable {s s' s'' : State} {t u r : Thread}

theorem Moves.building (moves : Moves s s') : s'.Building t ↔ s.Building t := by
  rw [State.Building, State.Building, moves.pc]

theorem Moves.counts (moves : Moves s s') : s'.Counts t ↔ s.Counts t := by
  constructor
  · rintro ⟨made, kept, built⟩
    exact ⟨moves.made ▸ made, moves.tcbFreed ▸ kept, fun h => built (moves.building.mpr h)⟩
  · rintro ⟨made, kept, built⟩
    exact ⟨moves.made ▸ made, moves.tcbFreed ▸ kept, fun h => built (moves.building.mp h)⟩

theorem Moves.listed (moves : Moves s s') (listed : s'.Listed t) : s.Listed t := by
  by_contra out
  exact listed.2 (by
    rw [moves.others t out]
    by_contra live
    exact out ⟨moves.counts.mp listed.1, live⟩)

theorem Moves.refl (s : State) : Moves s s where
  pc := rfl
  owner := rfl
  tcbList := rfl
  children := rfl
  made := rfl
  procs := rfl
  pcbFreed := rfl
  address := rfl
  tcbFreed := rfl
  inputLocked := rfl
  pcb _ := rfl
  others _ _ := rfl

theorem Moves.trans (h : Moves s s') (h' : Moves s' s'') : Moves s s'' where
  pc := h'.pc.trans h.pc
  owner := h'.owner.trans h.owner
  tcbList := h'.tcbList.trans h.tcbList
  children := h'.children.trans h.children
  made := h'.made.trans h.made
  procs := h'.procs.trans h.procs
  pcbFreed := h'.pcbFreed.trans h.pcbFreed
  address := h'.address.trans h.address
  tcbFreed := h'.tcbFreed.trans h.tcbFreed
  inputLocked := h'.inputLocked.trans h.inputLocked
  pcb u := (h'.pcb u).trans (h.pcb u)
  others u out := (h'.others u fun listed => out (h.listed listed)).trans (h.others u out)

theorem Moves.goesOn (moves : Moves s s') (goesOn : s'.GoesOn t) : s.GoesOn t := by
  obtain ⟨made, kept, lives⟩ := goesOn
  refine ⟨moves.made ▸ made, moves.tcbFreed ▸ kept, fun ended => lives ?_⟩
  rw [moves.others t fun listed => listed.2 ended]
  exact ended

theorem State.Listed.goesOn (listed : s.Listed t) : s.GoesOn t :=
  ⟨listed.1.made, listed.1.kept, listed.2⟩

/-- A thread that is being set up is not listed. -/
theorem not_listed_of_builds {x : Thread} (builds : (s.pc t).builds = some x) : ¬ s.Listed x :=
  fun listed => listed.1.built ⟨t, builds⟩

theorem Regions.moves (regions : Regions s) (moves : Moves s s') : Regions s' where
  holders t held := by
    rw [moves.pc] at held
    rw [moves.owner, moves.pcb]
    exact regions.holders t held
  unlocks t next := by
    rw [moves.pc]
    exact regions.unlocks t next
  fresh t late := by
    rw [moves.made] at late
    rw [moves.pc, moves.tcbFreed,
      moves.others t fun listed => absurd listed.1.made (Nat.not_lt.mpr late)]
    exact regions.fresh t late
  tcbs p u mem := by
    rw [moves.tcbList] at mem
    rw [moves.made, moves.tcbFreed, moves.pcb]
    exact regions.tcbs p u mem
  nodup p := by
    rw [moves.tcbList]
    exact regions.nodup p
  housed u goesOn := by
    rw [moves.tcbList, moves.pcb, moves.pcbFreed]
    exact regions.housed u (moves.goesOn goesOn)
  procs := by
    rw [moves.made, moves.procs, moves.tcbList, moves.pcbFreed]
    simp only [moves.pcb]
    exact regions.procs
  builders t x builds := by
    rw [moves.pc] at builds
    rw [moves.made, moves.others x (not_listed_of_builds builds), moves.pc]
    exact regions.builders t x builds
  builder t u x := by
    rw [moves.pc]
    exact regions.builder t u x
  made t x place := by
    rw [moves.pc] at place
    rw [moves.pcb, moves.pcb, moves.tcbList]
    exact regions.made t x place
  children t c place := by
    rw [moves.pc] at place
    obtain ⟨pushed, kept, empty⟩ := regions.children t c place
    exact ⟨moves.procs ▸ pushed, moves.pcbFreed ▸ kept, fun u counts => by
      rw [moves.pcb]
      exact empty u (moves.counts.mp counts)⟩
  forker t u c := by
    rw [moves.pc]
    exact regions.forker t u c
  pushed t c := by
    rw [moves.pc, moves.tcbList]
    exact regions.pushed t c
  forked t c x := by
    rw [moves.pc, moves.tcbList]
    exact regions.forked t c x
  freed t l place u mem := by
    rw [moves.pc] at place
    have ended := regions.freed t l place u mem
    rw [moves.others u fun listed => listed.2 ended.1, moves.tcbList]
    exact ended

end

end OsKernel.Dispatch
