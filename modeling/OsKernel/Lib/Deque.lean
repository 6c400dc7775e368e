/-
Double-ended sequences of bounded length.

An operation at either end fails where there is no room for another element, or none to
take, and then leaves the sequence as it is (`step_failed_iff`, `step_failed`).
-/

import Mathlib.Data.List.Infix
import Mathlib.Tactic.Common

namespace OsKernel

/-- A sequence of at most `capacity` elements. -/
@[ext] structure Deque (α : Type) (capacity : Nat) where
  items : List α
  fits : items.length ≤ capacity

namespace Deque

variable {α : Type} {capacity : Nat}

def empty : Deque α capacity := ⟨[], Nat.zero_le capacity⟩

def pushTail (q : Deque α capacity) (x : α) : Option (Deque α capacity) :=
  if room : q.items.length < capacity then
    some ⟨q.items ++ [x], by rw [List.length_append]; exact room⟩
  else none

def popHead (q : Deque α capacity) : Option (Deque α capacity × α) :=
  match q with
  | ⟨[], _⟩ => none
  | ⟨x :: items, fits⟩ => some (⟨items, (Nat.le_succ _).trans fits⟩, x)

def popTail (q : Deque α capacity) : Option (Deque α capacity × α) :=
  q.items.getLast?.map fun x =>
    (⟨q.items.dropLast, (List.dropLast_sublist _).length_le.trans q.fits⟩, x)

inductive Op (α : Type) where
  | pushTail (x : α)
  | popHead
  | popTail
deriving DecidableEq

inductive Answer (α : Type) where
  | failed
  | pushed
  | popped (x : α)
deriving DecidableEq

def step (q : Deque α capacity) : Op α → Deque α capacity × Answer α
  | .pushTail x => match q.pushTail x with
      | none => (q, .failed)
      | some q => (q, .pushed)
  | .popHead => match q.popHead with
      | none => (q, .failed)
      | some (q, x) => (q, .popped x)
  | .popTail => match q.popTail with
      | none => (q, .failed)
      | some (q, x) => (q, .popped x)

/-- There is no room for the element, or none to take. -/
def Refuses (q : Deque α capacity) : Op α → Prop
  | .pushTail _ => q.items.length = capacity
  | .popHead | .popTail => q.items = []

variable {q : Deque α capacity} {x : α} {items : List α}

/-! ### One operation -/

theorem pushTail_full (full : q.items.length = capacity) : q.pushTail x = none :=
  dif_neg full.not_lt

theorem pushTail_room (room : q.items.length ≠ capacity) :
    ∃ q', q.pushTail x = some q' ∧ q'.items = q.items ++ [x] :=
  ⟨_, dif_pos (Nat.lt_of_le_of_ne q.fits room), rfl⟩

theorem popHead_empty (none : q.items = []) : q.popHead = Option.none := by
  obtain ⟨items, fits⟩ := q
  subst none
  rfl

theorem popHead_cons (whole : q.items = x :: items) :
    ∃ q', q.popHead = some (q', x) ∧ q'.items = items := by
  obtain ⟨items', fits⟩ := q
  subst whole
  exact ⟨_, rfl, rfl⟩

theorem popTail_empty (none : q.items = []) : q.popTail = Option.none := by
  simp [popTail, none]

theorem popTail_concat (whole : q.items = items ++ [x]) :
    ∃ q', q.popTail = some (q', x) ∧ q'.items = items := by
  obtain ⟨items', fits⟩ := q
  subst whole
  refine ⟨⟨items, by simp at fits; omega⟩, ?_, rfl⟩
  simp [popTail]

/-- An operation fails exactly where it is refused. -/
theorem step_failed_iff (q : Deque α capacity) (op : Op α) :
    (q.step op).2 = .failed ↔ q.Refuses op := by
  cases op with
  | pushTail x =>
      by_cases full : q.items.length = capacity
      · simp [step, Refuses, pushTail_full full, full]
      · obtain ⟨q', pushed, -⟩ := pushTail_room (x := x) full
        simp [step, Refuses, pushed, full]
  | popHead =>
      cases whole : q.items with
      | nil => simp [step, Refuses, popHead_empty whole, whole]
      | cons x items =>
          obtain ⟨q', popped, -⟩ := popHead_cons whole
          simp [step, Refuses, popped, whole]
  | popTail =>
      rcases List.eq_nil_or_concat q.items with whole | ⟨items, x, whole⟩
      · simp [step, Refuses, popTail_empty whole, whole]
      · rw [List.concat_eq_append] at whole
        obtain ⟨q', popped, -⟩ := popTail_concat whole
        simp [step, Refuses, popped, whole]

/-- An operation that fails changes nothing. -/
theorem step_failed {op : Op α} (failed : (q.step op).2 = .failed) : (q.step op).1 = q := by
  have refused := (step_failed_iff q op).mp failed
  cases op with
  | pushTail x => rw [step, pushTail_full refused]
  | popHead => rw [step, popHead_empty refused]
  | popTail => rw [step, popTail_empty refused]

end Deque

end OsKernel
