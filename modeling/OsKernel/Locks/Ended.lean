/-
No mutex is left behind.

Handlers release what they take before they end their thread, so a mutex is left with a
terminated thread only where the thread is stopped in the middle of a region: by a fault, or
by `task_vanish` of a sibling. `terminated_hold_nothing` is the result about every run in which
neither happens; `print_left_locked` is a run in which `task_vanish` does.
-/

import OsKernel.Locks.Runs

namespace OsKernel.Locks

open Mutex

/-- In no state of a run is a mutex held by a thread that is terminated, when the threads that
are stopped hold none. -/
theorem terminated_hold_nothing (oracle : Nat → Nat) (is : List (Nat × Call))
    (stopped : Run.StepsMeet step (Performs LeavesNothing) (boot oracle) is) :
    Run.Along step (fun c => ∀ m t, c.state.owner m = some t → c.state.alive t = true)
      (boot oracle) is :=
  good_of_run False True (.inr trivial) oracle
    (stopped.mono fun _ _ h => ⟨False.elim, fun _ => h⟩) fun _ good => good.inv.held trivial

theorem terminated_hold_nothing_alone :
    Run.StepsMeet step (Performs LeavesNothing) (boot (answers [])) (List.replicate 12 (1, .taskVanish)) ∧
      Run.Along step (fun c => ∀ m t, c.state.owner m = some t → c.state.alive t = true)
        (boot (answers [])) (List.replicate 12 (1, .taskVanish)) := by
  have stopped : Run.StepsMeet step (Performs LeavesNothing) (boot (answers []))
      (List.replicate 12 (1, .taskVanish)) := by
    have ok : ∀ {c : Config} {i : Nat × Call} {a : Act} {k : Answer a → Prog Act Answer Unit},
        c.todo i.1 = .act a k → LeavesNothing i.1 a c.state → Performs LeavesNothing c i :=
      performs_act
    refine ⟨performs_ret rfl, ok rfl trivial, ok rfl trivial, ok rfl trivial, ok rfl fun u _ same ne => ?_,
      ok rfl trivial, ok rfl trivial, ok rfl trivial, ok rfl trivial, ok rfl trivial, ok rfl trivial,
      ok rfl trivial, trivial⟩
    exact absurd same ne
  exact ⟨stopped, terminated_hold_nothing _ _ stopped⟩

/-- A thread is terminated by its sibling in the middle of `print`: the console stays locked. -/
theorem print_left_locked :
    ¬ Run.Along step (fun c => ∀ m t, c.state.owner m = some t → c.state.alive t = true)
      (boot (answers [1, 1, 0, 1]))
      (List.replicate 17 (1, .threadFork) ++ List.replicate 5 (2, .print) ++
        List.replicate 5 (1, .taskVanish)) := by
  intro along
  have dead := along.last outputLock 2 (by decide +kernel)
  revert dead
  decide +kernel

end OsKernel.Locks
