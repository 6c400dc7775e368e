/-
Words on a stack that grows downwards.

A stack lies in a memory of words at addresses that are 4 apart, and is known by the address of
its top. `Stacked mem p ws` says that the words `ws` stand from `p` on, the top first, and
`pushAll` pushes words one after another. The rules are:

* `stacked_append`: words on top of others;
* `Stacked.congr`: a memory that is the same in the range of a stack has the same stack;
* `stacked_pushAll` and `pushAll_other`: what pushes leave on the stack, and outside of it.
-/

import Mathlib.Logic.Function.Basic
import Mathlib.Tactic.Common

namespace OsKernel.Stack

variable {W : Type}

/-- The words from an address on, the top of the stack first. -/
def Stacked (mem : Nat → W) : Nat → List W → Prop
  | _, [] => True
  | p, w :: ws => mem p = w ∧ Stacked mem (p + 4) ws

/-- Words pushed one after another onto a stack whose top is at `p`. -/
def pushAll (mem : Nat → W) : Nat → List W → Nat → W
  | _, [] => mem
  | p, w :: ws => pushAll (Function.update mem (p - 4) w) (p - 4) ws

variable {mem mem' : Nat → W} {p : Nat} {ws vs : List W}

theorem stacked_append : Stacked mem p (ws ++ vs) ↔
    Stacked mem p ws ∧ Stacked mem (p + 4 * ws.length) vs := by
  induction ws generalizing p with
  | nil => exact ⟨fun h => ⟨trivial, h⟩, fun h => h.2⟩
  | cons w ws ih =>
      have shift : p + 4 * (w :: ws).length = p + 4 + 4 * ws.length := by
        rw [List.length_cons]
        omega
      rw [List.cons_append, Stacked, Stacked, ih, shift, and_assoc]

/-- A memory that is the same in the range of a stack has the same stack. -/
theorem Stacked.congr (h : Stacked mem p ws)
    (same : ∀ a, p ≤ a → a < p + 4 * ws.length → mem' a = mem a) : Stacked mem' p ws := by
  induction ws generalizing p with
  | nil => trivial
  | cons w ws ih =>
      rw [List.length_cons] at same
      refine ⟨(same p (Nat.le_refl p) (by omega)).trans h.1, ih h.2 fun a low high => ?_⟩
      exact same a (by omega) (by omega)

theorem pushAll_append (mem : Nat → W) (p : Nat) (ws vs : List W) :
    pushAll mem p (ws ++ vs) = pushAll (pushAll mem p ws) (p - 4 * ws.length) vs := by
  induction ws generalizing mem p with
  | nil => rfl
  | cons w ws ih =>
      rw [List.cons_append, pushAll, ih, pushAll, List.length_cons, Nat.sub_sub]
      congr 1
      omega

/-- Pushes leave alone what is outside of their range. -/
theorem pushAll_other {a : Nat} (outside : a < p - 4 * ws.length ∨ p ≤ a) (fits : 4 * ws.length ≤ p) :
    pushAll mem p ws a = mem a := by
  induction ws generalizing mem p with
  | nil => rfl
  | cons w ws ih =>
      rw [List.length_cons] at outside fits
      have outside' : a < p - 4 - 4 * ws.length ∨ p - 4 ≤ a := by omega
      have fits' : 4 * ws.length ≤ p - 4 := by omega
      rw [pushAll, ih outside' fits']
      refine Function.update_of_ne ?_ w mem
      omega

/-- The words that were pushed, the last one on top, and under them what was there. -/
theorem stacked_pushAll (fits : 4 * ws.length ≤ p) (below : Stacked mem p vs) :
    Stacked (pushAll mem p ws) (p - 4 * ws.length) (ws.reverse ++ vs) := by
  induction ws generalizing mem p vs with
  | nil => exact below
  | cons w ws ih =>
      rw [List.length_cons] at fits
      have top : Stacked (Function.update mem (p - 4) w) (p - 4) (w :: vs) := by
        refine ⟨Function.update_self (p - 4) w mem, ?_⟩
        rw [Nat.sub_add_cancel (by omega)]
        exact below.congr fun a low _ => Function.update_of_ne (by omega) w mem
      have rest := ih (by omega) top
      rw [pushAll, List.length_cons, List.reverse_cons, List.append_assoc, List.singleton_append]
      rwa [Nat.sub_sub, Nat.add_comm 4] at rest

end OsKernel.Stack
