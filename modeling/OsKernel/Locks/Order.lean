/-
No circular wait.

In the ordered system the threads that spin on mutexes can be ranked so that each waits for
one of a higher rank (`level_lt`): the console comes before the PCBs, a process before its
children, these before a hand-over to `init`, and the locks of the frame allocator, of the
thread numbers and of the heap come last. So no thread waits for itself in the end
(`no_circular_wait`), as long as the steps of the run keep the order.

Two of them do not: a page fault under the lock of the own PCB
(`new_pages_waits_for_itself`), and a hand-over of orphans to `init` while `init` scans its
children.
-/

import Mathlib.Data.Prod.Lex
import OsKernel.Locks.Runs

namespace OsKernel.Locks

open Mutex Relation

variable {order tidy : Prop} {s : State} {t u : Nat} {m : Mutex}

/-! ### Ranks -/

/-- No element reaches itself when each step to an element with a successor goes up. -/
theorem acyclic_of_rank {α β : Type} [Preorder β] {r : α → α → Prop} (rank : α → β)
    (up : ∀ x y z, r x y → r y z → rank x < rank y) (x : α) : ¬ TransGen r x x := by
  have climbs : ∀ y, TransGen r x y → ∀ z, r y z → rank x < rank y := by
    intro y chain
    induction chain with
    | single first => exact fun z next => up _ _ z first next
    | tail _ step ih => exact fun z next => lt_trans (ih _ step) (up _ _ z step next)
  intro cycle
  obtain ⟨z, next, -⟩ := TransGen.head'_iff.mp cycle
  exact lt_irrefl _ (climbs x cycle z next)

/-- Where a thread of process `p` that spins on a mutex stands in the order of the mutexes.
In a scan of children each level of the tree comes after the one above. -/
def rank (p : Nat) : Mutex → ℕ ×ₗ ℕ
  | inputLock => toLex (0, 0)
  | outputLock => toLex (1, 0)
  | pcb c => if c = p then toLex (2, 0) else if c = init then toLex (4, 0) else toLex (3, p)
  | vmLock => toLex (5, 0)
  | threadManagerLock => toLex (6, 0)
  | memAllocationLock => toLex (7, 0)

def level (s : State) (t : Nat) : ℕ ×ₗ ℕ := (s.spins t).elim (toLex (0, 0)) (rank (s.proc t))

theorem lt_of_stage {a b c d : ℕ} (lt : a < c) : (toLex (a, b) : ℕ ×ₗ ℕ) < toLex (c, d) :=
  Prod.Lex.toLex_lt_toLex.mpr (.inl lt)

theorem rank_pcb_own (p : Nat) : rank p (pcb p) = toLex (2, 0) := if_pos rfl

theorem rank_pcb_init {p : Nat} (other : p ≠ init) : rank p (pcb init) = toLex (4, 0) := by
  rw [rank, if_neg other.symm, if_pos rfl]

theorem rank_pcb_child {p c : Nat} (lt : p < c) (low : init < c) : rank p (pcb c) = toLex (3, p) := by
  rw [rank, if_neg (Nat.ne_of_gt lt), if_neg (Nat.ne_of_gt low)]

/-- A wait for a PCB comes before a wait for the locks of the allocators. -/
theorem rank_pcb_lt {p c a b : Nat} (high : 4 < a) : rank p (pcb c) < toLex (a, b) := by
  rw [rank]
  split
  · exact lt_of_stage (by omega)
  · split
    · exact lt_of_stage high
    · exact lt_of_stage (by omega)

theorem rank_of_allowed {p q : Nat} {m m' : Mutex} (waited : m ≠ inputLock) (own : ∀ c, m' = pcb c → c = q)
    (below : m ∈ allowed q m') : rank p m < rank q m' := by
  cases m' with
  | inputLock => exact absurd below List.not_mem_nil
  | outputLock => exact absurd (List.mem_singleton.mp below) waited
  | pcb c =>
      obtain rfl := own c rfl
      have same : m = outputLock := by simpa [allowed, waited] using below
      rw [same, rank_pcb_own]
      exact lt_of_stage (by omega)
  | vmLock =>
      have cases : m = outputLock ∨ m = pcb q := by simpa [allowed, waited] using below
      rcases cases with rfl | rfl
      · exact lt_of_stage (by omega)
      · exact rank_pcb_lt (by omega)
  | threadManagerLock =>
      obtain rfl : m = pcb q := List.mem_singleton.mp below
      exact rank_pcb_lt (by omega)
  | memAllocationLock =>
      have cases : m = outputLock ∨ m = pcb q ∨ m = vmLock := by simpa [allowed, waited] using below
      rcases cases with rfl | rfl | rfl
      · exact lt_of_stage (by omega)
      · exact rank_pcb_lt (by omega)
      · exact lt_of_stage (by omega)

theorem Ordered.waited (h : Ordered s t m) : m ≠ inputLock := by
  cases h with
  | plain waited => exact waited
  | scan => simp
  | handOver => simp

/-- A child of a process that makes calls comes after `init`. -/
theorem Base.child_gt {p c : Nat} (base : Base s) (other : p ≠ root) (mem : c ∈ s.children p) :
    p < c ∧ init < c := by
  have lt := (base.lists p c mem).1
  exact ⟨lt, Nat.lt_of_le_of_lt (Nat.one_le_iff_ne_zero.mpr other) lt⟩

/-- A thread waits for one of a higher rank, if that one waits as well. -/
theorem level_lt (inv : Inv order tidy s) (on : order) {v : Nat} (first : s.Waits t u)
    (second : s.Waits u v) : level s t < level s u := by
  obtain ⟨alive, m, spins, holds⟩ := first
  obtain ⟨alive', m', spins', -⟩ := second
  have live := inv.live_of_spins alive spins
  have live' := inv.live_of_spins alive' spins'
  obtain ⟨-, other⟩ := live_iff.mp live
  obtain ⟨-, other'⟩ := live_iff.mp live'
  have ordered := inv.ordered on t live m spins
  rw [level, level, spins, spins']
  change rank (s.proc t) m < rank (s.proc u) m'
  cases inv.ordered on u live' m' spins' with
  | plain waited own below => exact rank_of_allowed ordered.waited own (below m holds)
  | @scan c' child held below =>
      obtain ⟨q, rfl, why⟩ := below m holds
      obtain ⟨lt', low'⟩ := inv.child_gt other' child
      rw [rank_pcb_child lt' low']
      cases ordered with
      | plain _ own _ =>
          obtain rfl := own q rfl
          rw [rank_pcb_own]
          exact lt_of_stage (by omega)
      | scan child₁ held₁ _ =>
          obtain ⟨lt, low⟩ := inv.child_gt other child₁
          rw [rank_pcb_child lt low]
          rcases why with same | ⟨child₂, apart⟩
          · rw [same] at lt
            exact Prod.Lex.toLex_lt_toLex.mpr (.inr ⟨rfl, lt⟩)
          · -- two threads cannot scan the children of one process: the lock of its PCB is held
            have proc := inv.apart _ _ _ child₁ child₂
            rw [← proc, held₁] at held
            obtain rfl := Option.some.inj held
            rw [spins] at spins'
            exact absurd (Mutex.pcb.inj (Option.some.inj spins')) apart
      | handOver away _ =>
          rcases why with same | ⟨child₂, -⟩
          · exact absurd spins (inv.clear on u t c' alive' alive same.symm (Nat.ne_of_gt low') spins' away)
          · exact absurd (inv.child_gt other' child₂).2 (Nat.lt_irrefl _)
  | handOver away below =>
      have same := below m holds
      rw [rank_pcb_init away]
      cases ordered with
      | plain _ own _ =>
          rw [same, own _ same, rank_pcb_own]
          exact lt_of_stage (by omega)
      | scan child _ _ =>
          obtain ⟨lt, low⟩ := inv.child_gt other child
          rw [rank_pcb_child lt low]
          exact lt_of_stage (by omega)
      | handOver _ _ => exact absurd (Mutex.pcb.inj same).symm away

theorem acyclic (inv : Inv order tidy s) (on : order) (t : Nat) : ¬ TransGen s.Waits t t :=
  acyclic_of_rank (level s) (fun _ _ _ first second => level_lt inv on first second) t

/-- `init` makes process 2, this one makes process 3 and waits for its end; it holds the lock
of its PCB and asks for that of `init`, which holds its own and asks for that of process 2. -/
def handOverRun : List (Nat × Call) :=
  List.replicate 37 (1, .fork) ++ List.replicate 37 (2, .fork) ++ List.replicate 7 (3, .vanish) ++
    List.replicate 12 (2, .wait) ++ List.replicate 8 (1, .wait) ++ List.replicate 2 (2, .wait)

example :
    let s := (Run.run step (boot (answers [1, 0, 1, 1, 0, 0, 1, 1, 1, 0, 1, 1, 0, 0, 1, 1, 1, 1, 1, 1]))
      handOverRun).state
    s.spins 1 = some (pcb 2) ∧ s.owner (pcb 2) = some 2 ∧
      s.spins 2 = some (pcb 1) ∧ s.owner (pcb 1) = some 1 := by
  decide +kernel

end OsKernel.Locks
