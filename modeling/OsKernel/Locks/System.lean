/-
What every thread may rely on while the others run, and what each action does.

`Base` is what holds of the process tree and the mutexes in every state. `Ordered` says of
a thread that spins on a mutex which mutexes it may hold meanwhile: that is the order in
which the kernel takes them. Between the PCBs it goes from a process to its children, and,
where orphans are handed over, from a process to `init`.

The rules are shared by two results, each with a condition of its own on the steps of a run:
`system order tidy` is the system in which the order is kept (`order`) or in which a thread
that ends holds nothing (`tidy`), each under its condition.
-/

import OsKernel.Locks.Handlers

namespace OsKernel.Locks

open Mutex

variable {order tidy : Prop} {s s' : State} {t u : Nat}

namespace State

/-- The only thread of its process that is not terminated. -/
def Alone (s : State) (t : Nat) : Prop := ∀ u, s.alive u = true → s.proc u = s.proc t → u = t

/-- No thread of the process is left. -/
def Exited (s : State) (c : Nat) : Prop := ∀ u, s.alive u = true → s.proc u ≠ c

/-- The thread makes calls. -/
def live (s : State) (t : Nat) : Bool := s.alive t && s.proc t != root

end State

/-! ### Invariants -/

structure Base (s : State) : Prop where
  threads : ∀ t, s.alive t = true →
    t < s.threadCount ∧ s.proc t < s.procCount ∧ s.gone (s.proc t) = false
  owners : ∀ m t, s.owner m = some t → t < s.threadCount
  spinners : ∀ t m, s.spins t = some m → t < s.threadCount ∧ s.proc t ≠ root
  lists : ∀ p, ∀ c ∈ s.children p, p < c ∧ c < s.procCount ∧ s.gone c = false
  nodup : ∀ p, (s.children p).Nodup
  apart : ∀ p q c, c ∈ s.children p → c ∈ s.children q → p = q
  reaped : ∀ p, s.gone p = true → p < s.procCount

/-- The mutexes that a thread of process `p` may hold when it asks for one, where neither a
scan of children nor a hand-over is under way. -/
def allowed (p : Nat) : Mutex → List Mutex
  | inputLock => []
  | outputLock => [inputLock]
  | pcb _ => [inputLock, outputLock]
  | vmLock => [inputLock, outputLock, pcb p]
  | threadManagerLock => [pcb p]
  | memAllocationLock => [inputLock, outputLock, pcb p, vmLock]

inductive Ordered (s : State) (t : Nat) : Mutex → Prop where
  | plain {m : Mutex} (waited : m ≠ inputLock) (own : ∀ q, m = pcb q → q = s.proc t)
      (below : ∀ m', s.owner m' = some t → m' ∈ allowed (s.proc t) m) : Ordered s t m
  | scan {c : Nat} (child : c ∈ s.children (s.proc t)) (held : s.owner (pcb (s.proc t)) = some t)
      (below : ∀ m', s.owner m' = some t →
        ∃ q, m' = pcb q ∧ (q = s.proc t ∨ q ∈ s.children (s.proc t) ∧ q ≠ c)) : Ordered s t (pcb c)
  | handOver (other : s.proc t ≠ init) (below : ∀ m', s.owner m' = some t → m' = pcb (s.proc t)) :
      Ordered s t (pcb init)

structure Inv (order tidy : Prop) (s : State) : Prop extends Base s where
  ordered : order → ∀ t, s.live t = true → ∀ m, s.spins t = some m → Ordered s t m
  clear : order → ∀ t u c, s.alive t = true → s.alive u = true → s.proc t = init → c ≠ init →
    s.spins t = some (pcb c) → s.proc u ≠ init → s.spins u ≠ some (pcb init)
  held : tidy → ∀ m t, s.owner m = some t → s.alive t = true

/-! ### What a thread relies on -/

/-- Another thread may unlock only `inputLock` in the place of thread `t`. -/
structure Rely (t : Nat) (s s' : State) : Prop where
  owner : ∀ m, m ≠ inputLock → (s'.owner m = some t ↔ s.owner m = some t)
  input : s'.owner inputLock = some t → s.owner inputLock = some t
  spins : s'.spins t = s.spins t
  proc : s'.proc t = s.proc t
  children : s.owner (pcb (s.proc t)) = some t → s'.children (s.proc t) = s.children (s.proc t)
  alone : s.Alone t → s'.Alone t
  grows : s.Alone t → s.children (s.proc t) ⊆ s'.children (s.proc t)
  exited : s.owner (pcb (s.proc t)) = some t ∨ s.Alone t →
    ∀ c ∈ s.children (s.proc t), s.Exited c → s'.Exited c
  gone : ∀ c, s.gone c = true → s'.gone c = true

theorem Rely.refl (t : Nat) (s : State) : Rely t s s where
  owner _ _ := Iff.rfl
  input h := h
  spins := rfl
  proc := rfl
  children _ := rfl
  alone h := h
  grows _ := List.Subset.refl _
  exited _ _ _ h := h
  gone _ h := h

theorem Rely.pcb_owner (h : Rely t s s') (p : Nat) :
    s'.owner (pcb p) = some t ↔ s.owner (pcb p) = some t :=
  h.owner (pcb p) (by simp)

theorem Rely.trans {s'' : State} (h : Rely t s s') (k : Rely t s' s'') : Rely t s s'' where
  owner m ne := (k.owner m ne).trans (h.owner m ne)
  input own := h.input (k.input own)
  spins := k.spins.trans h.spins
  proc := k.proc.trans h.proc
  children own := by
    have own' := (h.pcb_owner _).mpr own
    rw [← h.proc] at own'
    rw [← h.children own, ← h.proc, k.children own']
  alone one := k.alone (h.alone one)
  grows one := by
    have later := k.grows (h.alone one)
    rw [h.proc] at later
    exact List.Subset.trans (h.grows one) later
  exited why c mem gone := by
    have why' : s'.owner (pcb (s'.proc t)) = some t ∨ s'.Alone t := by
      rw [h.proc]
      exact why.imp (h.pcb_owner _).mpr h.alone
    have mem' : c ∈ s'.children (s'.proc t) := by
      rw [h.proc]
      rcases why with own | one
      · rwa [h.children own]
      · exact h.grows one mem
    exact k.exited why' c mem' (h.exited why c mem gone)
  gone c h' := k.gone c (h.gone c h')

theorem Ordered.of_rely {m : Mutex} (ordered : Ordered s t m) (rely : Rely t s s') :
    Ordered s' t m := by
  have owned : ∀ m', s'.owner m' = some t → s.owner m' = some t := by
    intro m' own
    by_cases input : m' = inputLock
    · subst input
      exact rely.input own
    · exact (rely.owner m' input).mp own
  cases ordered with
  | plain waited own below =>
      refine .plain waited ?_ ?_ <;> rw [rely.proc]
      · exact own
      · exact fun m' own' => below m' (owned m' own')
  | scan child held below =>
      have same := rely.children held
      refine .scan ?_ ?_ ?_ <;> rw [rely.proc]
      · rwa [same]
      · exact (rely.pcb_owner _).mpr held
      · rw [same]
        exact fun m' own' => below m' (owned m' own')
  | handOver other below =>
      refine .handOver ?_ ?_ <;> rw [rely.proc]
      · exact other
      · exact fun m' own' => below m' (owned m' own')

/-- The mutexes a thread holds. Of `inputLock` it is known only that the thread holds no
other: a reader that takes it over does not look whether it got it. -/
structure Holds (t : Nat) (H : List Mutex) (s : State) : Prop where
  most : ∀ m, s.owner m = some t → m ∈ H
  least : ∀ m ∈ H, m ≠ inputLock → s.owner m = some t

theorem Holds.of_rely {H : List Mutex} (h : Holds t H s) (rely : Rely t s s') : Holds t H s' where
  most m own := by
    by_cases input : m = inputLock
    · subst input
      exact h.most _ (rely.input own)
    · exact h.most m ((rely.owner m input).mp own)
  least m mem ne := (rely.owner m ne).mpr (h.least m mem ne)

theorem Holds.congr {H H' : List Mutex} (h : Holds t H s) (same : ∀ m, m ∈ H ↔ m ∈ H') :
    Holds t H' s :=
  ⟨fun m own => (same m).mp (h.most m own), fun m mem => h.least m ((same m).mpr mem)⟩

theorem holds_nil : Holds t [] s ↔ s.HoldsNone t := by
  refine ⟨fun h m own => absurd (h.most m own) List.not_mem_nil, fun h => ⟨fun m own => ?_, ?_⟩⟩
  · exact absurd own (h m)
  · simp

/-- Between two calls a thread holds nothing and spins on nothing. -/
structure Ready (t : Nat) (s : State) : Prop where
  holds : Holds t [] s
  idle : s.spins t = none

theorem Ready.of_rely (h : Ready t s) (rely : Rely t s s') : Ready t s' :=
  ⟨h.holds.of_rely rely, by rw [rely.spins, h.idle]⟩

/-! ### The system -/

/-- A page fault does not happen to a thread that holds the lock of its own PCB, no fault is
given to a user handler while the thread holds a mutex, and no thread waits for the lock of
`init` to hand orphans over while a thread of `init` waits for the lock of a child. -/
def KeepsOrder (t : Nat) : Act → State → Prop
  | .access, s => s.oracle 0 ≠ 0 → s.owner (pcb (s.proc t)) ≠ some t
  | .deliver, s => s.HoldsNone t
  | .call m, s =>
      (s.proc t = init → ∀ c, c ≠ init → m = pcb c → ∀ u, s.alive u = true → s.proc u ≠ init →
        s.spins u ≠ some (pcb init)) ∧
      (s.proc t ≠ init → m = pcb init → ∀ u, s.alive u = true → s.proc u = init →
        ∀ c, c ≠ init → s.spins u ≠ some (pcb c))
  | _, _ => True

/-- A thread that a fault kills, or gives to a user handler, holds no mutex, and neither do
the siblings that `task_vanish` terminates. -/
def LeavesNothing (t : Nat) : Act → State → Prop
  | .deliver, s => s.HoldsNone t
  | .fatal, s => s.HoldsNone t
  | .terminateSiblings, s =>
      ∀ u, s.alive u = true → s.proc u = s.proc t → u ≠ t → s.HoldsNone u
  | _, _ => True

structure Admits (order tidy : Prop) (t : Nat) (a : Act) (s : State) : Prop where
  proceeds : s.proceeds a = true
  order : order → KeepsOrder t a s
  tidy : tidy → LeavesNothing t a s

def system (order tidy : Prop) : Sys State Nat Act Answer where
  exec := exec
  live := State.live
  inv := Inv order tidy
  rely := Rely
  ready := Ready
  admits := Admits order tidy
  rely_trans := Rely.trans
  ready_stable := Ready.of_rely

end OsKernel.Locks
