/-
Programs that obtain blocks from a heap and give them back.

A block is known by its address, and 0 is the null pointer. The heap keeps the blocks that
were obtained and not yet given back, and what the next calls of `malloc` find; a call
that finds no block, or one that is not free, fails. `Legal` is the contract of `free`.
`Owns l` says that exactly the blocks `l` are out. The rules are one for each action,
`does_malloc` and `does_free`, and one for a loop that gives back several blocks,
`does_freeAll`.
-/

import OsKernel.Lib.Check
import Mathlib.Data.List.Nodup

namespace OsKernel.Heap

open Prog

abbrev Addr := Nat

structure State where
  blocks : List Addr
  outcomes : Nat → Addr

inductive Action where
  | malloc
  | free (p : Addr)

abbrev Answer : Action → Type
  | .malloc => Addr
  | .free _ => Unit

def exec : (a : Action) → State → State × Answer a
  | .malloc, s =>
      let s' := { s with outcomes := fun n => s.outcomes (n + 1) }
      if s.outcomes 0 = 0 ∨ s.outcomes 0 ∈ s.blocks then (s', (0 : Addr))
      else ({ s' with blocks := s.outcomes 0 :: s.blocks }, s.outcomes 0)
  | .free p, s => ({ s with blocks := s.blocks.erase p }, ())

/-- Only a block that is out is given back. -/
def Legal : Action → State → Prop
  | .malloc, _ => True
  | .free p, s => p ∈ s.blocks

/-- Nothing ends the thread. -/
def alive (_ : State) : Bool := true

abbrev HeapProg (α : Type) := Prog Action Answer α

def malloc : HeapProg Addr := perform Action.malloc

def free (p : Addr) : HeapProg Unit := perform (Action.free p)

/-- Give back one block after another. -/
def freeAll : List Addr → HeapProg Unit
  | [] => pure ()
  | p :: ps => do
      free p
      freeAll ps

/-- Exactly these blocks are out. -/
structure Owns (l : List Addr) (s : State) : Prop where
  perm : s.blocks.Perm l
  nodup : l.Nodup
  nonnull : 0 ∉ l

/-- Every action is legal, and the program ends with `Q`. -/
abbrev Does {α : Type} (P : State → Prop) (p : HeapProg α) (Q : α → State → Prop) : Prop :=
  Prog.Does exec alive Legal P p Q

/-- A program over the heap ends. -/
theorem eval_ends {α : Type} (prog : HeapProg α) (s : State) :
    ∃ x, (prog.eval exec alive s).2 = some x := by
  induction prog generalizing s with
  | ret x => exact ⟨x, rfl⟩
  | act a k ih => exact ih _ _

/-- With no block out at the start there is none at the end. -/
theorem Does.keeps_empty {α : Type} {prog : HeapProg α} (does : Does (Owns []) prog fun _ => Owns [])
    {s : State} (empty : s.blocks = []) :
    prog.Meets exec alive Legal s ∧ (prog.eval exec alive s).1.blocks = [] := by
  have start : Owns [] s := ⟨empty ▸ .refl _, List.nodup_nil, List.not_mem_nil⟩
  obtain ⟨meets, ends⟩ := does s start
  obtain ⟨x, ran⟩ := eval_ends prog s
  exact ⟨meets, (ends x ran).perm.eq_nil⟩

variable {l l' : List Addr} {p : Addr} {s : State}

theorem Owns.of_perm (owns : Owns l s) (perm : l.Perm l') : Owns l' s :=
  ⟨owns.perm.trans perm, perm.nodup_iff.mp owns.nodup, fun mem => owns.nonnull (perm.mem_iff.mpr mem)⟩

theorem does_malloc (l : List Addr) :
    Does (Owns l) malloc fun p s => p = 0 ∧ Owns l s ∨ p ≠ 0 ∧ Owns (p :: l) s := by
  refine Prog.Does.perform (a := Action.malloc) (fun _ _ => trivial) fun s owns _ => ?_
  rw [exec]
  split
  · exact .inl ⟨rfl, owns.perm, owns.nodup, owns.nonnull⟩
  · rename_i found
    rw [not_or] at found
    have new : s.outcomes 0 ∉ l := fun mem => found.2 (owns.perm.mem_iff.mpr mem)
    exact .inr ⟨found.1, owns.perm.cons _, List.nodup_cons.mpr ⟨new, owns.nodup⟩,
      fun mem => (List.mem_cons.mp mem).elim (fun zero => found.1 zero.symm) owns.nonnull⟩

theorem does_free (p : Addr) (l : List Addr) : Does (Owns (p :: l)) (free p) fun _ => Owns l := by
  refine Prog.Does.perform (a := Action.free p) (fun s owns => owns.perm.mem_iff.mpr List.mem_cons_self)
    fun s owns _ => ?_
  have perm : (s.blocks.erase p).Perm ((p :: l).erase p) := owns.perm.erase p
  rw [List.erase_cons_head] at perm
  exact ⟨perm, (List.nodup_cons.mp owns.nodup).2, fun mem => owns.nonnull (List.mem_cons_of_mem p mem)⟩

theorem does_freeAll (ps l : List Addr) : Does (Owns (ps ++ l)) (freeAll ps) fun _ => Owns l := by
  induction ps with
  | nil => exact .ret fun _ owns => owns
  | cons p ps ih => exact .bind (does_free p (ps ++ l)) fun _ => ih

/-- A block that may not have been found. -/
theorem Does.ofMalloc {α : Type} {f : Addr → HeapProg α} {Q : α → State → Prop}
    (fails : Does (Owns l) (f 0) Q) (gives : ∀ p, p ≠ 0 → Does (Owns (p :: l)) (f p) Q) :
    Does (Owns l) (malloc >>= f) Q := by
  refine .bind (does_malloc l) fun p => ?_
  by_cases null : p = 0
  · subst null
    exact fails.conseq (fun s out => (out.resolve_right fun found => found.1 rfl).2) fun _ _ h => h
  · exact (gives p null).conseq (fun s out => (out.resolve_left fun none => null none.1).2) fun _ _ h => h

end OsKernel.Heap
