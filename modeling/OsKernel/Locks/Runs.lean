/-
Runs of the kernel under a condition on their steps.

`good_of_run`: when every step of a run meets the condition of the system, every state keeps
its invariant, and every thread is safe where it stands.
-/

import OsKernel.Locks.Regions

namespace OsKernel.Locks

open Mutex

variable {order tidy : Prop}

/-- What the next action of the thread does meets the condition. -/
def Performs (C : Nat → Act → State → Prop) (c : Config) (i : Nat × Call) : Prop :=
  c.state.live i.1 = true → ∀ a k, c.todo i.1 = .act a k → C i.1 a c.state

theorem performs_ret {C : Nat → Act → State → Prop} {c : Config} {i : Nat × Call}
    (todo : c.todo i.1 = .ret ()) : Performs C c i := by
  intro _ a k next
  rw [todo] at next
  exact absurd next (by simp)

theorem performs_act {C : Nat → Act → State → Prop} {c : Config} {i : Nat × Call} {a : Act}
    {k : Answer a → Prog Act Answer Unit} (todo : c.todo i.1 = .act a k) (ok : C i.1 a c.state) :
    Performs C c i := by
  intro _ a' k' next
  rw [todo] at next
  cases next
  exact ok

theorem advance_eq (order tidy : Prop) (c : Config) (i : Nat × Call) :
    advance c i = (system order tidy).step program c i := by
  unfold advance Sys.step
  refine if_congr Iff.rfl ?_ rfl
  cases c.todo i.1 with
  | ret _ => rfl
  | act a k => rfl

/-- Every step keeps every thread safe where it stands, under the conditions of the system. -/
theorem good_step {c : Config} {i : Nat × Call} (mode : order ∨ tidy) (good : (system order tidy).Good c)
    (ord : order → Performs KeepsOrder c i) (tid : tidy → Performs LeavesNothing c i) :
    (system order tidy).Good (step c i) := by
  unfold step
  split
  · next ok =>
      rw [advance_eq order tidy]
      refine good.step (fun t call => program_meets mode call) (fun live a k todo => ?_) Rely.refl
      refine ⟨?_, fun on => ord on live a k todo, fun on => tid on live a k todo⟩
      rwa [proceeds, todo] at ok
  · exact good

theorem base_boot (oracle : Nat → Nat) : Base (boot oracle).state := by
  have only : ∀ p c, c ∈ (boot oracle).state.children p → p = root ∧ c = init := by
    intro p c mem
    change c ∈ (if p = root then [init] else []) at mem
    split at mem
    · next same => exact ⟨same, List.mem_singleton.mp mem⟩
    · exact absurd mem List.not_mem_nil
  have low : ∀ t, (boot oracle).state.alive t = true → t < 2 := fun t alive => of_decide_eq_true alive
  refine ⟨fun t alive => ⟨low t alive, low t alive, rfl⟩, by simp [boot], by simp [boot],
    fun p c mem => ?_, fun p => ?_, fun p q c mem mem' => ?_, by simp [boot]⟩
  · obtain ⟨rfl, rfl⟩ := only p c mem
    exact ⟨Nat.zero_lt_one, Nat.one_lt_two, rfl⟩
  · change (if p = root then [init] else []).Nodup
    split <;> simp
  · rw [(only p c mem).1, (only q c mem').1]

theorem good_boot (oracle : Nat → Nat) : (system order tidy).Good (boot oracle) :=
  ⟨⟨base_boot oracle, by simp [boot], by simp [boot], by simp [boot]⟩,
    fun t _ => ⟨holds_nil.mpr (by simp [State.HoldsNone, boot]), rfl⟩⟩

/-- Every state of a run keeps the invariant, when its steps meet the conditions. -/
theorem good_of_run (order tidy : Prop) (mode : order ∨ tidy) (oracle : Nat → Nat) {is : List (Nat × Call)}
    (meet : Run.StepsMeet step (fun c i => (order → Performs KeepsOrder c i) ∧
      (tidy → Performs LeavesNothing c i)) (boot oracle) is) {P : Config → Prop}
    (gives : ∀ c, (system order tidy).Good c → P c) : Run.Along step P (boot oracle) is :=
  Run.along_of_stepsMeet gives (fun _ _ good h => good_step mode good h.1 h.2) (good_boot oracle) meet

/-- Answers that begin with those listed, and are 0 from then on. -/
def answers (l : List Nat) (i : Nat) : Nat := l.getD i 0

end OsKernel.Locks
