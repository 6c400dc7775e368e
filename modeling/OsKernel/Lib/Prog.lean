/-
Programs made of atomic actions, run by threads that interleave, and the rules to
reason about one of them at a time.

A program is a tree: a result, or an action and what to do with its outcome. A
thread performs its actions one by one, and between two of them any other thread
may perform its own; a thread whose program is over is given the next one, and
an action may make threads live or dead. `Sys` says what an action does, which
invariant the shared state keeps, and what each thread may rely on while others
run. `Safe` is the judgement about a program in a state: whatever the others do
within the rely, every action keeps the invariant and what the others rely on,
and the program ends with its postcondition. The rules are:

* `Safe.bind`, `Triple.bind`: programs are verified piece by piece;
* `Triple.perform`: one action, from what it does in one state;
* `Triple.forAll`: a loop over a list that stops at the first failure;
* `Good.step`: when the program of every call is safe, every interleaving keeps
  the invariant, and every thread is safe where it stands.
-/

import OsKernel.Lib.Run
import Mathlib.Logic.Function.Basic
import Mathlib.Tactic.Common

namespace OsKernel

/-- A program over the actions `A`, where action `a` answers with an `R a`. -/
inductive Prog (A : Type) (R : A → Type) (α : Type) where
  | ret (x : α)
  | act (a : A) (k : R a → Prog A R α)

namespace Prog

variable {A : Type} {R : A → Type} {α β : Type}

protected def bind : Prog A R α → (α → Prog A R β) → Prog A R β
  | .ret x, f => f x
  | .act a k, f => .act a fun r => (k r).bind f

instance : Monad (Prog A R) where
  pure := .ret
  bind := Prog.bind

/-- The program of one action. -/
def perform (a : A) : Prog A R (R a) := .act a .ret

/-- Run `body` on the elements in order, up to the first failure. -/
def forAll (body : β → Prog A R Bool) : List β → Prog A R Bool
  | [] => pure true
  | x :: xs => do
      if ← body x then forAll body xs else pure false

end Prog

/-- A system of threads `T` that share a state `σ`: what each action does, which
threads are live, the invariant of the shared state, what a thread relies on,
what holds of a thread between two programs, and which actions are admitted. -/
structure Sys (σ T A : Type) (R : A → Type) where
  exec : T → (a : A) → σ → σ × R a
  live : σ → T → Bool
  inv : σ → Prop
  rely : T → σ → σ → Prop
  ready : T → σ → Prop
  admits : T → A → σ → Prop
  rely_trans : ∀ {t s s' s''}, rely t s s' → rely t s' s'' → rely t s s''
  ready_stable : ∀ {t s s'}, ready t s → rely t s s' → ready t s'

namespace Sys

variable {σ T A : Type} {R : A → Type} (S : Sys σ T A R) {α β : Type}

/-- What thread `t` owes to the others when it takes the state from `s` to `s'`:
the rely of those that stay live, and a ready state for those it starts. -/
def Guarantees (t : T) (s s' : σ) : Prop :=
  ∀ t', t' ≠ t → S.live s' t' → (S.live s t' → S.rely t' s s') ∧ (S.live s t' = false → S.ready t' s')

/-- The program of thread `t` is safe in a state: see the top of the file. -/
def Safe (t : T) (Q : α → σ → Prop) : Prog A R α → σ → Prop
  | .ret x, s => Q x s
  | .act a k, s => ∀ s', S.rely t s s' → S.inv s' → S.live s' t → S.admits t a s' →
      S.inv (S.exec t a s').1 ∧ S.Guarantees t s' (S.exec t a s').1 ∧
        (S.live (S.exec t a s').1 t → Safe t Q (k (S.exec t a s').2) (S.exec t a s').1)

/-- A property that the other threads cannot break. -/
def Stable (t : T) (P : σ → Prop) : Prop := ∀ s s', P s → S.rely t s s' → P s'

/-- From every state with `P` the program is safe, and it ends with `Q`. -/
def Triple (t : T) (P : σ → Prop) (p : Prog A R α) (Q : α → σ → Prop) : Prop :=
  ∀ s, S.inv s → S.live s t → P s → S.Safe t Q p s

variable {S} {t : T}

theorem Safe.mono {Q Q' : α → σ → Prop} {p : Prog A R α} {s : σ} (safe : S.Safe t Q p s)
    (imp : ∀ x s, Q x s → Q' x s) : S.Safe t Q' p s := by
  induction p generalizing s with
  | ret x => exact imp x s safe
  | act a k ih =>
      intro s' rely inv live ok
      obtain ⟨inv', guar, next⟩ := safe s' rely inv live ok
      exact ⟨inv', guar, fun live' => ih _ (next live')⟩

/-- What the others do does not make a program unsafe. -/
theorem Safe.of_rely {Q : α → σ → Prop} {p : Prog A R α} {s s' : σ} (safe : S.Safe t Q p s)
    (stable : ∀ x, S.Stable t (Q x)) (rely : S.rely t s s') : S.Safe t Q p s' := by
  cases p with
  | ret x => exact stable x s s' safe rely
  | act a k => exact fun s'' rely' => safe s'' (S.rely_trans rely rely')

/-- Sequencing. The second program starts where the first has ended. -/
theorem Safe.bind {Q : α → σ → Prop} {Q' : β → σ → Prop} {p : Prog A R α}
    {f : α → Prog A R β} {s : σ} (safe : S.Safe t Q p s) (inv : S.inv s) (live : S.live s t)
    (next : ∀ x, S.Triple t (Q x) (f x) Q') : S.Safe t Q' (p >>= f) s := by
  induction p generalizing s with
  | ret x => exact next x s inv live safe
  | act a k ih =>
      intro s' rely inv' live' ok
      obtain ⟨inv'', guar, cont⟩ := safe s' rely inv' live' ok
      exact ⟨inv'', guar, fun live'' => ih _ (cont live'') inv'' live''⟩

theorem Triple.bind {P : σ → Prop} {Q : α → σ → Prop} {Q' : β → σ → Prop} {p : Prog A R α}
    {f : α → Prog A R β} (first : S.Triple t P p Q) (next : ∀ x, S.Triple t (Q x) (f x) Q') :
    S.Triple t P (p >>= f) Q' :=
  fun s inv live pre => (first s inv live pre).bind inv live next

theorem Triple.ret {P : σ → Prop} {Q : α → σ → Prop} {x : α} (imp : ∀ s, S.inv s → P s → Q x s) :
    S.Triple t P (pure x) Q :=
  fun s inv _ pre => imp s inv pre

theorem Triple.conseq {P P' : σ → Prop} {Q Q' : α → σ → Prop} {p : Prog A R α}
    (triple : S.Triple t P p Q) (pre : ∀ s, S.inv s → P' s → P s)
    (post : ∀ x s, Q x s → Q' x s) : S.Triple t P' p Q' :=
  fun s inv live h => (triple s inv live (pre s inv h)).mono post

/-- What thread `t` does to the state with an action: the invariant and the others
are kept, and `Q` holds of the answer. -/
structure Does (S : Sys σ T A R) (t : T) (a : A) (s : σ) (Q : R a → σ → Prop) (s' : σ) (r : R a) :
    Prop where
  eq : S.exec t a s = (s', r)
  inv : S.inv s'
  guar : S.Guarantees t s s'
  post : S.live s' t → Q r s'

/-- One action, from every state with the precondition. -/
theorem Triple.perform {P : σ → Prop} {a : A} {Q : R a → σ → Prop} (stable : S.Stable t P)
    (does : ∀ s, S.inv s → S.live s t → S.admits t a s → P s → ∃ s' r, S.Does t a s Q s' r) :
    S.Triple t P (Prog.perform a) Q := by
  intro s _ _ pre s' rely inv live ok
  obtain ⟨s'', r, h⟩ := does s' inv live ok (stable s s' pre rely)
  rw [h.eq]
  exact ⟨h.inv, h.guar, h.post⟩

/-- A loop that keeps an invariant of the elements still to come, and may stop
early with a weaker one. -/
theorem Triple.forAll {I : List β → σ → Prop} {F : σ → Prop} {body : β → Prog A R Bool}
    (each : ∀ x xs, S.Triple t (I (x :: xs)) (body x) fun ok s => bif ok then I xs s else F s) :
    ∀ xs, S.Triple t (I xs) (Prog.forAll body xs) fun ok s => bif ok then I [] s else F s
  | [] => Triple.ret fun _ _ h => h
  | x :: xs => by
      refine Triple.bind (each x xs) fun ok => ?_
      cases ok with
      | true => exact Triple.forAll each xs
      | false => exact Triple.ret fun _ _ h => h

/-! ### Interleavings -/

/-- The shared state and what each thread still has to do. -/
structure Config (σ T A : Type) (R : A → Type) where
  state : σ
  todo : T → Prog A R Unit

variable {C : Type} [DecidableEq T] (S) (call : C → Prog A R Unit)

/-- One step of the thread that the input names. A thread with nothing to do
starts the program of the call, and a thread that has become live has nothing to
do yet. -/
def step (c : Config σ T A R) (i : T × C) : Config σ T A R :=
  if S.live c.state i.1 then
    match c.todo i.1 with
    | .ret () => { c with todo := Function.update c.todo i.1 (call i.2) }
    | .act a k =>
        let out := S.exec i.1 a c.state
        ⟨out.1, fun t => if t = i.1 then k out.2
          else if S.live out.1 t && !S.live c.state t then .ret () else c.todo t⟩
  else c

/-- The step that the input makes is admitted. -/
def Admitted (c : Config σ T A R) (i : T × C) : Prop :=
  S.live c.state i.1 → ∀ a k, c.todo i.1 = .act a k → S.admits i.1 a c.state

/-- The invariant holds and every live thread is safe where it stands. -/
structure Good (c : Config σ T A R) : Prop where
  inv : S.inv c.state
  safe : ∀ t, S.live c.state t → S.Safe t (fun _ => S.ready t) (c.todo t) c.state

variable {S call}

/-- Every interleaving of admitted steps keeps the invariant. -/
theorem Good.step {c : Config σ T A R} (good : S.Good c)
    (calls : ∀ t x, S.Triple t (S.ready t) (call x) fun _ => S.ready t) {i : T × C}
    (ok : S.Admitted c i) (refl : ∀ t s, S.rely t s s) : S.Good (S.step call c i) := by
  unfold Sys.step
  by_cases live : S.live c.state i.1
  swap
  · rwa [if_neg live]
  rw [if_pos live]
  have safe := good.safe i.1 live
  cases todo : c.todo i.1 with
  | ret u =>
      rw [todo] at safe
      refine ⟨good.inv, fun t live' => ?_⟩
      by_cases same : t = i.1
      · subst same
        simpa using calls _ i.2 c.state good.inv live safe
      · simpa [Function.update_of_ne same] using good.safe t live'
  | act a k =>
      rw [todo] at safe
      obtain ⟨inv, guar, next⟩ := safe c.state (refl _ _) good.inv live (ok live a k todo)
      refine ⟨inv, fun t live' => ?_⟩
      by_cases same : t = i.1
      · subst same
        simpa using next live'
      obtain ⟨stay, start⟩ := guar t same live'
      by_cases was : S.live c.state t
      · simp only [same, ↓reduceIte, was, Bool.not_true, Bool.and_false, Bool.false_eq_true]
        exact (good.safe t was).of_rely (fun _ _ _ => S.ready_stable) (stay was)
      · have live'' : S.live (S.exec i.1 a c.state).1 t = true := live'
        simp only [same, ↓reduceIte, live'', was, Bool.not_false, Bool.and_self]
        exact start (by simpa using was)

end Sys

end OsKernel
