/-
The threads in a phase, counted.

A roster lists those for which a predicate holds, each once, so that its length is their
number although there is no bound on the threads. One thread enters or leaves the phase at
a time (`add`, `remove`), or goes from one place to another (`stay`, `enter`, `leave`).
-/

import Mathlib.Data.List.Nodup
import Mathlib.Logic.Function.Basic
import Mathlib.Tactic.Common

namespace OsKernel

variable {α : Type} {P P' : α → Prop} {l : List α} {a : α}

structure Roster (P : α → Prop) (l : List α) : Prop where
  nodup : l.Nodup
  mem : ∀ a, a ∈ l ↔ P a

namespace Roster

theorem empty (none : ∀ a, ¬ P a) : Roster P [] :=
  ⟨List.nodup_nil, fun a => iff_of_false List.not_mem_nil (none a)⟩

theorem congr (roster : Roster P l) (same : ∀ a, P' a ↔ P a) : Roster P' l :=
  ⟨roster.nodup, fun a => (roster.mem a).trans (same a).symm⟩

theorem add (roster : Roster P l) (new : ¬ P a) (more : ∀ b, P' b ↔ b = a ∨ P b) :
    Roster P' (a :: l) := by
  refine ⟨List.nodup_cons.mpr ⟨mt (roster.mem a).mp new, roster.nodup⟩, fun b => ?_⟩
  rw [List.mem_cons, roster.mem, more]

theorem remove [DecidableEq α] (roster : Roster P l) (less : ∀ b, P' b ↔ b ≠ a ∧ P b) :
    Roster P' (l.erase a) := by
  refine ⟨roster.nodup.erase a, fun b => ?_⟩
  rw [roster.nodup.mem_erase_iff, roster.mem, less]

theorem length_remove [DecidableEq α] (roster : Roster P l) (old : P a) :
    (l.erase a).length + 1 = l.length := by
  have mem := (roster.mem a).mpr old
  rw [List.length_erase_of_mem mem]
  exact Nat.sub_add_cancel (List.length_pos_of_mem mem)

/-! ### Places -/

section
variable [DecidableEq α] {β : Type} {place : α → β} {p : β → Prop} {b : β}

theorem stay (roster : Roster (fun c => p (place c)) l) (same : p b ↔ p (place a)) :
    Roster (fun c => p (Function.update place a b c)) l := by
  refine roster.congr fun c => ?_
  by_cases self : c = a
  · rw [self, Function.update_self, same]
  · rw [Function.update_of_ne self]

theorem enter (roster : Roster (fun c => p (place c)) l) (outside : ¬ p (place a)) (inside : p b) :
    Roster (fun c => p (Function.update place a b c)) (a :: l) := by
  refine roster.add outside fun c => ?_
  by_cases self : c = a
  · rw [self, Function.update_self]
    exact iff_of_true inside (.inl rfl)
  · rw [Function.update_of_ne self, or_iff_right self]

theorem leave (roster : Roster (fun c => p (place c)) l) (outside : ¬ p b) :
    Roster (fun c => p (Function.update place a b c)) (l.erase a) := by
  refine roster.remove fun c => ?_
  by_cases self : c = a
  · rw [self, Function.update_self]
    exact iff_of_false outside fun both => both.1 rfl
  · rw [Function.update_of_ne self, and_iff_right self]

end

end Roster

end OsKernel
