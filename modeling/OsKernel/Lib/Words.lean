/-
Words in a memory of bytes.

A word is four bytes, the lowest first. A write changes its own four bytes, so that what is
read elsewhere stays (`word_putWord_of_apart`), and a word depends on its own bytes only
(`word_congr`).
-/

import Mathlib.Algebra.Group.Nat.Defs
import Mathlib.Order.Interval.Set.Basic
import Mathlib.Tactic.Common

namespace OsKernel.Words

abbrev Mem := Nat → BitVec 8

/-- The word at an address. -/
def word (m : Mem) (a : Nat) : Nat :=
  (m a).toNat + 256 * (m (a + 1)).toNat + 65536 * (m (a + 2)).toNat +
    16777216 * (m (a + 3)).toNat

def putWord (m : Mem) (a v : Nat) : Mem := fun x =>
  if x = a then .ofNat 8 v
  else if x = a + 1 then .ofNat 8 (v / 256)
  else if x = a + 2 then .ofNat 8 (v / 65536)
  else if x = a + 3 then .ofNat 8 (v / 16777216)
  else m x

variable {m m' : Mem} {a b v x : Nat}

theorem word_lt (m : Mem) (a : Nat) : word m a < 2 ^ 32 := by
  have h₀ := (m a).isLt
  have h₁ := (m (a + 1)).isLt
  have h₂ := (m (a + 2)).isLt
  have h₃ := (m (a + 3)).isLt
  simp only [word]
  omega

theorem word_putWord (lt : v < 2 ^ 32) : word (putWord m a v) a = v := by
  simp [word, putWord]
  omega

theorem putWord_of_notMem (out : x ∉ Set.Ico a (a + 4)) : putWord m a v x = m x := by
  simp only [Set.mem_Ico] at out
  rw [putWord, if_neg (by omega), if_neg (by omega), if_neg (by omega), if_neg (by omega)]

theorem word_congr (same : ∀ x ∈ Set.Ico a (a + 4), m x = m' x) : word m a = word m' a := by
  rw [word, word, same a ⟨by omega, by omega⟩, same (a + 1) ⟨by omega, by omega⟩,
    same (a + 2) ⟨by omega, by omega⟩, same (a + 3) ⟨by omega, by omega⟩]

theorem word_putWord_of_apart (apart : a + 4 ≤ b ∨ b + 4 ≤ a) :
    word (putWord m a v) b = word m b := by
  apply word_congr
  intro x inside
  apply putWord_of_notMem
  rintro ⟨low, high⟩
  have := inside.1
  have := inside.2
  omega

/-- Writing the word that is there changes nothing. -/
theorem putWord_word (m : Mem) (a : Nat) : putWord m a (word m a) = m := by
  have h₀ := (m a).isLt
  have h₁ := (m (a + 1)).isLt
  have h₂ := (m (a + 2)).isLt
  have h₃ := (m (a + 3)).isLt
  have byte : ∀ (b : BitVec 8) (n : Nat), n % 256 = b.toNat → BitVec.ofNat 8 n = b := by
    intro b n same
    apply BitVec.eq_of_toNat_eq
    rw [BitVec.toNat_ofNat]
    exact same
  funext x
  simp only [putWord, word]
  split
  · rename_i same
    subst same
    exact byte _ _ (by omega)
  · split
    · rename_i same
      subst same
      exact byte _ _ (by omega)
    · split
      · rename_i same
        subst same
        exact byte _ _ (by omega)
      · split
        · rename_i same
          subst same
          exact byte _ _ (by omega)
        · rfl

end OsKernel.Words
