/-
Programs whose every action meets a check, in the state it is performed in.

`Does` is the judgement about a program that one thread runs to its end: from every
state with the precondition each action meets the check, and the program ends, if it
ends, with the postcondition. `Ends` takes it that the actions meet the check, and speaks
of the end only. `eval_related` compares two runs of one program: when an
action that meets the check cannot tell two related states apart, a program whose
actions all meet it cannot either.
-/

import OsKernel.Lib.Seq

namespace OsKernel.Prog

variable {σ A : Type} {R : A → Type} {α β : Type}

/-- Every action meets `ok`, and the program ends with `Q`, if it ends. -/
def Does (exec : (a : A) → σ → σ × R a) (live : σ → Bool) (ok : A → σ → Prop) (P : σ → Prop)
    (p : Prog A R α) (Q : α → σ → Prop) : Prop :=
  ∀ s, P s → p.Meets exec live ok s ∧
    ∀ x, (p.eval exec live s).2 = some x → Q x (p.eval exec live s).1

variable {exec : (a : A) → σ → σ × R a} {live : σ → Bool} {ok : A → σ → Prop}
variable {P P' : σ → Prop} {Q Q' : α → σ → Prop}

theorem Does.ret {x : α} (imp : ∀ s, P s → Q x s) : Does exec live ok P (pure x) Q := by
  refine fun s pre => ⟨trivial, fun y h => ?_⟩
  cases h
  exact imp s pre

theorem Does.conseq {p : Prog A R α} (h : Does exec live ok P p Q) (pre : ∀ s, P' s → P s)
    (post : ∀ x s, Q x s → Q' x s) : Does exec live ok P' p Q' :=
  fun s start => ⟨(h s (pre s start)).1, fun x ran => post x _ ((h s (pre s start)).2 x ran)⟩

/-- From each state with the precondition on its own. -/
theorem Does.each {p : Prog A R α} (h : ∀ s, P s → Does exec live ok (· = s) p Q) :
    Does exec live ok P p Q := fun s pre => h s pre s rfl

/-- A part of the precondition that is not about the state. -/
theorem Does.given {φ : Prop} {p : Prog A R α} (h : φ → Does exec live ok P p Q) :
    Does exec live ok (fun s => P s ∧ φ) p Q := fun s pre => h pre.2 s pre.1

theorem Does.bind {p : Prog A R α} {f : α → Prog A R β} {Q' : β → σ → Prop}
    (first : Does exec live ok P p Q) (next : ∀ x, Does exec live ok (Q x) (f x) Q') :
    Does exec live ok P (p >>= f) Q' := by
  intro s pre
  obtain ⟨meets, post⟩ := first s pre
  refine ⟨(meets_bind p f s).mpr ⟨meets, fun x ran => (next x _ (post x ran)).1⟩, fun y ran => ?_⟩
  rw [eval_bind] at ran ⊢
  generalize p.eval exec live s = out at post ran ⊢
  obtain ⟨s', _ | x⟩ := out
  · cases ran
  · exact (next x s' (post x rfl)).2 y ran

/-- One action. -/
theorem Does.perform {a : A} {Q : R a → σ → Prop} (check : ∀ s, P s → ok a s)
    (does : ∀ s, P s → live (exec a s).1 = true → Q (exec a s).2 (exec a s).1) :
    Does exec live ok P (perform a) Q := by
  refine fun s pre => ⟨⟨check s pre, fun _ => trivial⟩, fun x ran => ?_⟩
  rw [eval_perform] at ran ⊢
  split at ran
  · rename_i alive
    cases ran
    rw [if_pos alive]
    exact does s pre alive
  · cases ran

/-- A loop that stops at the first failure. -/
theorem Does.forAll {body : β → Prog A R Bool} {xs : List β}
    (each : ∀ x ∈ xs, Does exec live ok P (body x) fun _ => P) :
    Does exec live ok P (forAll body xs) fun _ => P := by
  induction xs with
  | nil => exact .ret fun _ h => h
  | cons x xs ih =>
      refine .bind (each x (by simp)) fun go => ?_
      cases go with
      | true => exact ih fun y hy => each y (List.mem_cons_of_mem x hy)
      | false => exact .ret fun _ h => h

/-! ### Runs that meet a check -/

/-- If every action meets `ok`, the program ends with `Q`, if it ends. -/
def Ends (exec : (a : A) → σ → σ × R a) (live : σ → Bool) (ok : A → σ → Prop) (P : σ → Prop)
    (p : Prog A R α) (Q : α → σ → Prop) : Prop :=
  ∀ s, P s → p.Meets exec live ok s → ∀ x, (p.eval exec live s).2 = some x →
    Q x (p.eval exec live s).1

theorem Ends.ret {x : α} (imp : ∀ s, P s → Q x s) : Ends exec live ok P (pure x) Q := by
  intro s pre _ y h
  cases h
  exact imp s pre

theorem Ends.conseq {p : Prog A R α} (h : Ends exec live ok P p Q) (pre : ∀ s, P' s → P s)
    (post : ∀ x s, Q x s → Q' x s) : Ends exec live ok P' p Q' :=
  fun s start meets x ran => post x _ (h s (pre s start) meets x ran)

theorem Ends.each {p : Prog A R α} (h : ∀ s, P s → Ends exec live ok (· = s) p Q) :
    Ends exec live ok P p Q := fun s pre => h s pre s rfl

theorem Ends.bind {p : Prog A R α} {f : α → Prog A R β} {Q' : β → σ → Prop}
    (first : Ends exec live ok P p Q) (next : ∀ x, Ends exec live ok (Q x) (f x) Q') :
    Ends exec live ok P (p >>= f) Q' := by
  intro s pre meets y ran
  obtain ⟨meets, rest⟩ := (meets_bind p f s).mp meets
  have post := first s pre meets
  rw [eval_bind] at ran ⊢
  generalize p.eval exec live s = out at post rest ran ⊢
  obtain ⟨s', _ | x⟩ := out
  · cases ran
  · exact next x s' (post x rfl) (rest x rfl) y ran

theorem Ends.perform {a : A} {Q : R a → σ → Prop}
    (does : ∀ s, P s → ok a s → live (exec a s).1 = true → Q (exec a s).2 (exec a s).1) :
    Ends exec live ok P (perform a) Q := by
  intro s pre meets x ran
  rw [eval_perform] at ran ⊢
  split at ran
  · rename_i alive
    cases ran
    rw [if_pos alive]
    exact does s pre meets.1 alive
  · cases ran

/-! ### What every action keeps -/

/-- What every action keeps that meets the check, a program keeps whose actions all meet it,
wherever it ends. -/
theorem Meets.keeps {P : σ → Prop} (keeps : ∀ a s, ok a s → P s → P (exec a s).1)
    {p : Prog A R α} {s : σ} (meets : p.Meets exec live ok s) (start : P s) :
    P (p.eval exec live s).1 := by
  induction p generalizing s with
  | ret x => exact start
  | act a k ih =>
      simp only [eval]
      split
      · rename_i lives
        exact ih _ (meets.2 lives) (keeps a s meets.1 start)
      · exact keeps a s meets.1 start

/-- What every action keeps, every program keeps. -/
theorem eval_keeps {P : σ → Prop} (keeps : ∀ a s, P s → P (exec a s).1) (p : Prog A R α) {s : σ}
    (start : P s) : P (p.eval exec live s).1 := by
  induction p generalizing s with
  | ret x => exact start
  | act a k ih =>
      simp only [eval]
      split
      · exact ih _ (keeps a s start)
      · exact keeps a s start

/-- Two runs of one program from related states. -/
theorem eval_related {rel : σ → σ → Prop}
    (blind : ∀ a s s', rel s s' → ok a s → rel (exec a s).1 (exec a s').1 ∧
      (exec a s).2 = (exec a s').2 ∧ live (exec a s).1 = live (exec a s').1)
    (p : Prog A R α) {s s' : σ} (start : rel s s') (meets : p.Meets exec live ok s) :
    rel (p.eval exec live s).1 (p.eval exec live s').1 ∧
      (p.eval exec live s).2 = (p.eval exec live s').2 := by
  induction p generalizing s s' with
  | ret x => exact ⟨start, rfl⟩
  | act a k ih =>
      obtain ⟨next, same, alive⟩ := blind a s s' start meets.1
      simp only [eval, ← alive, ← same]
      split
      · rename_i lives
        exact ih _ next (meets.2 lives)
      · exact ⟨next, rfl⟩

end OsKernel.Prog
