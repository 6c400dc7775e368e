/-
Lists that are grouped by a key.

`Grouped f l` says that elements of one key stand next to each other. It is stated by
sublists, so that a list loses it by no deletion: `Grouped.sublist`. `Grouped.rotate` and
`Grouped.insert` are the rules for the two other edits of a queue of groups: the first
group goes to the end, and an element comes behind the last of its group.
-/

import Mathlib.Data.List.Sublists
import Mathlib.Data.List.TakeWhile
import Mathlib.Tactic.Common

namespace OsKernel.Groups

variable {α κ : Type} {f : α → κ} {l : List α}

/-- Between two elements of one key there are only elements of it. -/
def Grouped (f : α → κ) (l : List α) : Prop :=
  ∀ x y z, List.Sublist [x, y, z] l → f x = f z → f y = f x

theorem Grouped.sublist {l' : List α} (grouped : Grouped f l) (sub : List.Sublist l' l) :
    Grouped f l' := fun x y z three => grouped x y z (three.trans sub)

/-- The keys of the elements alone matter. -/
theorem Grouped.congr {g : α → κ} (grouped : Grouped f l) (same : ∀ x ∈ l, g x = f x) :
    Grouped g l := by
  intro x y z three key
  have mem := fun u (h : u ∈ [x, y, z]) => same u (three.subset h)
  rw [mem x (by simp), mem z (by simp)] at key
  rw [mem x (by simp), mem y (by simp)]
  exact grouped x y z three key

/-- What stands in a list of two parts. -/
theorem pair_append {x y : α} {l l' : List α} (sub : List.Sublist [x, y] (l ++ l')) :
    List.Sublist [x, y] l ∨ x ∈ l ∧ y ∈ l' ∨ List.Sublist [x, y] l' := by
  obtain ⟨front, back, whole, first, last⟩ := List.sublist_append_iff.mp sub
  rcases front with _ | ⟨u, _ | ⟨v, front⟩⟩
  · exact .inr (.inr (whole ▸ last))
  · obtain ⟨rfl, rfl⟩ : x = u ∧ [y] = back := by simpa using whole
    exact .inr (.inl ⟨List.singleton_sublist.mp first, List.singleton_sublist.mp last⟩)
  · obtain ⟨rfl, rfl, rfl, rfl⟩ : x = u ∧ y = v ∧ front = [] ∧ back = [] := by
      simpa [eq_comm] using whole
    exact .inl first

theorem triple_append {x y z : α} {l l' : List α} (sub : List.Sublist [x, y, z] (l ++ l')) :
    List.Sublist [x, y, z] l ∨ List.Sublist [x, y] l ∧ z ∈ l' ∨ x ∈ l ∧ List.Sublist [y, z] l' ∨
      List.Sublist [x, y, z] l' := by
  obtain ⟨front, back, whole, first, last⟩ := List.sublist_append_iff.mp sub
  rcases front with _ | ⟨u, front⟩
  · exact .inr (.inr (.inr (whole ▸ last)))
  obtain ⟨rfl, others⟩ : x = u ∧ [y, z] = front ++ back := by simpa using whole
  rcases front with _ | ⟨v, _ | ⟨w, front⟩⟩
  · exact .inr (.inr (.inl ⟨List.singleton_sublist.mp first, others ▸ last⟩))
  · obtain ⟨rfl, rfl⟩ : y = v ∧ [z] = back := by simpa using others
    exact .inr (.inl ⟨first, List.singleton_sublist.mp last⟩)
  · obtain ⟨rfl, rfl, rfl, rfl⟩ : y = v ∧ z = w ∧ front = [] ∧ back = [] := by
      simpa [eq_comm] using others
    exact .inl first

theorem pair_of_mem_append {x y : α} {l l' : List α} (first : x ∈ l) (next : y ∈ l') :
    List.Sublist [x, y] (l ++ l') :=
  (List.singleton_sublist.mpr first).append (List.singleton_sublist.mpr next)

section
variable [DecidableEq κ] {a : α} {rest : List α}

/-- Behind the first group its key does not come again. -/
theorem Grouped.ne_of_mem_dropWhile (grouped : Grouped f (a :: rest)) {b : α}
    (mem : b ∈ rest.dropWhile fun u => f u = f a) : f b ≠ f a := by
  intro same
  cases behind : rest.dropWhile fun u => f u = f a with
  | nil =>
      rw [behind] at mem
      cases mem
  | cons d ds =>
      have other : f d ≠ f a := by
        have out := List.head?_dropWhile_not (fun u => decide (f u = f a)) rest
        simpa [behind] using out
      rw [behind] at mem
      have tail : List.Sublist (d :: ds) rest := behind ▸ List.dropWhile_sublist _
      rcases List.mem_cons.mp mem with rfl | mem
      · exact other same
      · have three : List.Sublist [a, d, b] (a :: rest) :=
          ((List.singleton_sublist.mpr mem).cons_cons d |>.trans tail).cons_cons a
        exact other (grouped a d b three same.symm)

/-- The first group goes to the end. -/
theorem Grouped.rotate (grouped : Grouped f (a :: rest)) :
    Grouped f ((rest.dropWhile fun u => f u = f a) ++ a :: rest.takeWhile fun u => f u = f a) := by
  have group : ∀ u ∈ a :: rest.takeWhile (fun u => f u = f a), f u = f a := by
    intro u mem
    rcases List.mem_cons.mp mem with rfl | mem
    · rfl
    · have key := List.mem_takeWhile_imp (p := fun u => decide (f u = f a)) mem
      exact of_decide_eq_true key
  have other : ∀ u ∈ rest.dropWhile (fun u => f u = f a), f u ≠ f a :=
    fun u mem => grouped.ne_of_mem_dropWhile mem
  intro x y z three same
  rcases triple_append three with inside | ⟨pair, last⟩ | ⟨first, pair⟩ | inside
  · exact grouped x y z (inside.trans ((List.dropWhile_sublist _).cons a)) same
  · exact absurd (same.trans (group z last)) (other x (pair.subset List.mem_cons_self))
  · exact absurd (same.trans (group z (pair.subset (by simp)))) (other x first)
  · rw [group x (inside.subset (by simp)), group y (inside.subset (by simp))]

end

/-- An element comes behind the last of its key, or at the end if there is none. -/
theorem Grouped.insert {pre post : List α} {s : α} (grouped : Grouped f (pre ++ post))
    (behind : ∀ u ∈ post, f u ≠ f s)
    (last : (∃ init e, pre = init ++ [e] ∧ f e = f s) ∨ post = [] ∧ ∀ u ∈ pre, f u ≠ f s) :
    Grouped f (pre ++ s :: post) := by
  have none : ∀ {x y}, ¬ List.Sublist [x, y] [s] := fun pair => absurd pair.length_le (by simp)
  intro x y z three same
  rcases triple_append three with inside | ⟨pair, final⟩ | ⟨first, pair⟩ | inside
  · exact grouped x y z (inside.trans (List.sublist_append_left pre post)) same
  · rcases List.mem_cons.mp final with rfl | final
    · -- `z` is the new element: the last of its key stands at the end of `pre`
      obtain ⟨init, e, rfl, key⟩ | ⟨-, other⟩ := last
      · rcases pair_append pair with pair | ⟨-, final⟩ | pair
        · have three := (pair.append (List.Sublist.refl [e])).trans (List.sublist_append_left _ post)
          exact grouped x y e three (same.trans key.symm)
        · rw [List.mem_singleton.mp final, key, same]
        · exact absurd pair.length_le (by simp)
      · exact absurd same (other x (pair.subset List.mem_cons_self))
    · exact grouped x y z (pair.append (List.singleton_sublist.mpr final)) same
  · rcases pair_append (l := [s]) pair with pair | ⟨new, final⟩ | pair
    · exact absurd pair none
    · -- `y` is the new element
      rw [List.mem_singleton.mp new]
      obtain ⟨init, e, rfl, key⟩ | ⟨rfl, -⟩ := last
      · rcases List.mem_append.mp first with first | first
        · have three := ((List.singleton_sublist.mpr first).append (List.Sublist.refl [e])).append
            (List.singleton_sublist.mpr final)
          rw [← key]
          exact grouped x e z three same
        · rw [List.mem_singleton.mp first, key]
      · cases final
    · exact grouped x y z ((List.singleton_sublist.mpr first).append pair) same
  · rcases triple_append (l := [s]) inside with inside | ⟨pair, -⟩ | ⟨new, pair⟩ | inside
    · exact absurd inside.length_le (by simp)
    · exact absurd pair none
    · rw [List.mem_singleton.mp new] at same
      exact absurd same.symm (behind z (pair.subset (by simp)))
    · exact grouped x y z (inside.trans (List.sublist_append_right pre post)) same

end OsKernel.Groups
