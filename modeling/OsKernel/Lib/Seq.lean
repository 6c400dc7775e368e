/-
Programs run to their end by one thread, with nobody in between.

`eval` performs the actions of a program one after another and gives the result,
or none when an action ends the thread. `Sys.alone` is the system in which this
thread is the only one, so that the rules for triples apply: `Triple.eval` turns a
triple into a fact about `eval`, and `Triple.atOnce` is the rule for one action.

`hoist` writes a program over the actions of another system. `hoist_eval`: when each
action is simulated, the program is. `Refines` compares a program with another one,
piece by piece (`Refines.bind`, `Refines.left`, `Refines.hoist`).
-/

import OsKernel.Lib.Prog

namespace OsKernel

namespace Prog

variable {σ τ A B : Type} {R : A → Type} {R' : B → Type} {α β : Type}

/-- The state a program ends in, and its result if the thread is live to the end. -/
def eval (exec : (a : A) → σ → σ × R a) (live : σ → Bool) : Prog A R α → σ → σ × Option α
  | .ret x, s => (s, some x)
  | .act a k, s =>
      if live (exec a s).1 then (k (exec a s).2).eval exec live (exec a s).1
      else ((exec a s).1, none)

/-- Every action that is performed meets the condition `ok` in the state it is
performed in. -/
def Meets (exec : (a : A) → σ → σ × R a) (live : σ → Bool) (ok : A → σ → Prop) :
    Prog A R α → σ → Prop
  | .ret _, _ => True
  | .act a k, s => ok a s ∧
      (live (exec a s).1 = true → (k (exec a s).2).Meets exec live ok (exec a s).1)

/-- Every action that stands in the program satisfies `P`. -/
def All (P : A → Prop) : Prog A R α → Prop
  | .ret _ => True
  | .act a k => P a ∧ ∀ r, (k r).All P

/-- The program with every action replaced. -/
def hoist (f : (a : A) → Prog B R' (R a)) : Prog A R α → Prog B R' α
  | .ret x => .ret x
  | .act a k => f a >>= fun r => (k r).hoist f

/-! ### Sequencing -/

theorem bind_ret (p : Prog A R α) : p.bind .ret = p := by
  induction p with
  | ret x => rfl
  | act a k ih => exact congrArg (Prog.act a) (funext ih)

theorem bind_bind {γ : Type} (p : Prog A R α) (f : α → Prog A R β) (g : β → Prog A R γ) :
    (p.bind f).bind g = p.bind fun x => (f x).bind g := by
  induction p with
  | ret x => rfl
  | act a k ih => exact congrArg (Prog.act a) (funext ih)

instance : LawfulMonad (Prog A R) :=
  LawfulMonad.mk' (Prog A R) bind_ret (fun _ _ => rfl) bind_bind

theorem forAll_append (body : β → Prog A R Bool) (xs ys : List β) :
    forAll body (xs ++ ys) = (do if ← forAll body xs then forAll body ys else pure false) := by
  induction xs with
  | nil => rfl
  | cons x xs ih =>
      change (body x >>= fun ok => _) = _
      rw [forAll, bind_assoc]
      congr
      funext ok
      cases ok with
      | true => exact ih
      | false => rfl

/-- A loop of loops. -/
theorem forAll_flatMap {γ : Type} (body : β → Prog A R Bool) (f : γ → List β) (xs : List γ) :
    forAll (fun x => forAll body (f x)) xs = forAll body (xs.flatMap f) := by
  induction xs with
  | nil => rfl
  | cons x xs ih => rw [List.flatMap_cons, forAll_append, forAll, ih]

theorem forAll_map {γ : Type} (body : β → Prog A R Bool) (f : γ → β) (xs : List γ) :
    forAll body (xs.map f) = forAll (fun x => body (f x)) xs := by
  induction xs with
  | nil => rfl
  | cons x xs ih => rw [List.map_cons, forAll, forAll, ih]

section
variable {exec : (a : A) → σ → σ × R a} {live : σ → Bool} {ok : A → σ → Prop}

@[simp] theorem eval_pure (x : α) (s : σ) :
    (pure x : Prog A R α).eval exec live s = (s, some x) := rfl

theorem eval_bind (p : Prog A R α) (f : α → Prog A R β) (s : σ) :
    (p >>= f).eval exec live s = match p.eval exec live s with
      | (s', some x) => (f x).eval exec live s'
      | (s', none) => (s', none) := by
  induction p generalizing s with
  | ret x => rfl
  | act a k ih =>
      change (Prog.act a fun r => (k r).bind f).eval exec live s = _
      simp only [eval]
      cases live (exec a s).1 with
      | true => exact ih _ _
      | false => rfl

/-- A program after one that ends with a result. -/
theorem eval_bind_some {p : Prog A R α} {s s' : σ} {x : α}
    (first : p.eval exec live s = (s', some x)) (f : α → Prog A R β) :
    (p >>= f).eval exec live s = (f x).eval exec live s' := by
  rw [eval_bind, first]

/-- A program after one that has ended the thread. -/
theorem eval_bind_none {p : Prog A R α} {s s' : σ} (ended : p.eval exec live s = (s', none))
    (f : α → Prog A R β) : (p >>= f).eval exec live s = (s', none) := by
  rw [eval_bind, ended]

/-- A result that is made from the one of a program leaves the state alone. -/
theorem eval_map_state (p : Prog A R α) (f : α → β) (s : σ) :
    ((p >>= fun x => pure (f x)).eval exec live s).1 = (p.eval exec live s).1 := by
  rw [eval_bind]
  rcases p.eval exec live s with ⟨s', _ | x⟩ <;> rfl

/-- A thread that has a result at the end is live there. -/
theorem eval_live {p : Prog A R α} {s s' : σ} {x : α} (start : live s = true)
    (ran : p.eval exec live s = (s', some x)) : live s' = true := by
  induction p generalizing s with
  | ret y =>
      cases ran
      exact start
  | act a k ih =>
      simp only [eval] at ran
      split at ran
      · rename_i alive
        exact ih _ alive ran
      · cases ran

/-- A thread that has no result has ended. -/
theorem eval_ended {p : Prog A R α} {s s' : σ} (ran : p.eval exec live s = (s', none)) :
    live s' = false := by
  induction p generalizing s with
  | ret y => cases ran
  | act a k ih =>
      simp only [eval] at ran
      split at ran
      · exact ih _ ran
      · rename_i dead
        cases ran
        exact Bool.eq_false_iff.mpr dead

theorem eval_perform (a : A) (s : σ) : (perform (R := R) a).eval exec live s =
    if live (exec a s).1 then ((exec a s).1, some (exec a s).2) else ((exec a s).1, none) := rfl

theorem eval_perform_state (a : A) (s : σ) :
    ((perform (R := R) a).eval exec live s).1 = (exec a s).1 := by
  rw [eval_perform]
  split <;> rfl

theorem meets_bind (p : Prog A R α) (f : α → Prog A R β) (s : σ) :
    (p >>= f).Meets exec live ok s ↔ p.Meets exec live ok s ∧
      ∀ x, (p.eval exec live s).2 = some x → (f x).Meets exec live ok (p.eval exec live s).1 := by
  induction p generalizing s with
  | ret x =>
      change (f x).Meets exec live ok s ↔ _
      simp [Meets, eval]
  | act a k ih =>
      change (Prog.act a fun r => (k r).bind f).Meets exec live ok s ↔ _
      simp only [Meets, eval]
      cases h : live (exec a s).1 with
      | true =>
          have := ih (exec a s).2 (exec a s).1
          simp only [forall_const, ↓reduceIte, and_assoc]
          exact and_congr_right fun _ => this
      | false => simp

theorem Meets.mono {ok' : A → σ → Prop} {p : Prog A R α} {s : σ} (h : p.Meets exec live ok s)
    (imp : ∀ a s, ok a s → ok' a s) : p.Meets exec live ok' s := by
  induction p generalizing s with
  | ret x => trivial
  | act a k ih => exact ⟨imp a s h.1, fun alive => ih _ (h.2 alive)⟩

theorem meets_of_forall (h : ∀ a s, ok a s) (p : Prog A R α) (s : σ) : p.Meets exec live ok s := by
  induction p generalizing s with
  | ret x => trivial
  | act a k ih => exact ⟨h a s, fun _ => ih _ _⟩

instance Meets.decidable [∀ a s, Decidable (ok a s)] :
    ∀ (p : Prog A R α) (s : σ), Decidable (p.Meets exec live ok s)
  | .ret _, _ => .isTrue trivial
  | .act a k, s =>
    have : Decidable ((k (exec a s).2).Meets exec live ok (exec a s).1) :=
      Meets.decidable (k (exec a s).2) (exec a s).1
    inferInstanceAs (Decidable (ok a s ∧
      (live (exec a s).1 = true → (k (exec a s).2).Meets exec live ok (exec a s).1)))

/-- A check that no action of the program can fail. -/
theorem meets_of_all {p : Prog A R α} (h : p.All fun a => ∀ s, ok a s) (s : σ) :
    p.Meets exec live ok s := by
  induction p generalizing s with
  | ret x => trivial
  | act a k ih => exact ⟨h.1 s, fun _ => ih _ (h.2 _) _⟩

/-- A check of a program, together with what holds of all its actions. -/
theorem All.meets {P : A → Prop} {p : Prog A R α} {s : σ} (h : p.All P)
    (meets : p.Meets exec live ok s) : p.Meets exec live (fun a s => P a ∧ ok a s) s := by
  induction p generalizing s with
  | ret x => trivial
  | act a k ih => exact ⟨⟨h.1, meets.1⟩, fun alive => ih _ (h.2 _) (meets.2 alive)⟩

/-- What a check allows keeps the thread alive, so that the program has a result. -/
theorem Meets.ends {p : Prog A R α} {s : σ} (meets : p.Meets exec live ok s)
    (stays : ∀ a s, ok a s → live s = true → live (exec a s).1 = true) (start : live s = true) :
    ∃ s' x, p.eval exec live s = (s', some x) ∧ live s' = true := by
  induction p generalizing s with
  | ret x => exact ⟨s, x, rfl, start⟩
  | act a k ih =>
      have alive := stays a s meets.1 start
      simp only [eval, if_pos alive]
      exact ih _ (meets.2 alive) alive

theorem all_bind {P : A → Prop} {p : Prog A R α} {f : α → Prog A R β} (first : p.All P)
    (next : ∀ x, (f x).All P) : (p >>= f).All P := by
  induction p with
  | ret x => exact next x
  | act a k ih => exact ⟨first.1, fun r => ih r (first.2 r)⟩

theorem All.mono {P Q : A → Prop} {p : Prog A R α} (h : p.All P) (imp : ∀ a, P a → Q a) :
    p.All Q := by
  induction p with
  | ret x => trivial
  | act a k ih => exact ⟨imp a h.1, fun r => ih r (h.2 r)⟩

@[simp] theorem all_pure {P : A → Prop} (x : α) : (pure x : Prog A R α).All P := trivial

theorem all_perform {P : A → Prop} {a : A} (h : P a) : (perform (R := R) a).All P :=
  ⟨h, fun _ => trivial⟩

theorem all_forAll {P : A → Prop} {body : β → Prog A R Bool} {xs : List β}
    (each : ∀ x ∈ xs, (body x).All P) : (forAll body xs).All P := by
  induction xs with
  | nil => trivial
  | cons x xs ih =>
      refine all_bind (each x (by simp)) fun ok => ?_
      cases ok with
      | true => exact ih fun y hy => each y (List.mem_cons_of_mem x hy)
      | false => trivial

end

/-! ### Programs over other actions -/

section
variable {f : (a : A) → Prog B R' (R a)}

theorem hoist_bind (p : Prog A R α) (g : α → Prog A R β) :
    (p >>= g).hoist f = p.hoist f >>= fun x => (g x).hoist f := by
  induction p with
  | ret x => rfl
  | act a k ih =>
      change (f a >>= fun r => (k r >>= g).hoist f) = (f a >>= fun r => (k r).hoist f) >>= _
      rw [bind_assoc]
      exact bind_congr ih

theorem hoist_perform (a : A) : (perform a).hoist f = f a := bind_ret (f a)

theorem hoist_forAll (body : β → Prog A R Bool) (xs : List β) :
    (forAll body xs).hoist f = forAll (fun x => (body x).hoist f) xs := by
  induction xs with
  | nil => rfl
  | cons x xs ih =>
      rw [forAll, hoist_bind, forAll]
      refine bind_congr fun ok => ?_
      cases ok with
      | true => exact ih
      | false => rfl

theorem all_hoist {P : B → Prop} {p : Prog A R α} (each : p.All fun a => (f a).All P) :
    (p.hoist f).All P := by
  induction p with
  | ret x => trivial
  | act a k ih => exact all_bind each.1 fun r => ih r (each.2 r)

end

/-! ### Simulation -/

section
variable {exec : (a : A) → σ → σ × R a} {live : σ → Bool} {ok : A → σ → Prop}
variable {exec' : (b : B) → τ → τ × R' b} {live' : τ → Bool} {ok' : B → τ → Prop}
variable {f : (a : A) → Prog B R' (R a)} {view : τ → σ}

/-- What one action does, seen through `view`, is what it does in the other system,
and the result is the same. `I` is what the simulation relies on. -/
def Simulates (exec : (a : A) → σ → σ × R a) (live : σ → Bool)
    (exec' : (b : B) → τ → τ × R' b) (live' : τ → Bool) (f : (a : A) → Prog B R' (R a))
    (view : τ → σ) (I : τ → Prop) (a : A) : Prop :=
  ∀ m, I m → ∃ m', (f a).eval exec' live' m =
      (m', if live (exec a (view m)).1 then some (exec a (view m)).2 else none) ∧
    view m' = (exec a (view m)).1 ∧ I m'

/-- A program is simulated when each of its actions is. -/
theorem hoist_eval {I : τ → Prop} {p : Prog A R α}
    (sim : p.All (Simulates exec live exec' live' f view I)) {m : τ} (start : I m) :
    ∃ m', (p.hoist f).eval exec' live' m = (m', (p.eval exec live (view m)).2) ∧
      view m' = (p.eval exec live (view m)).1 ∧ I m' := by
  induction p generalizing m with
  | ret x => exact ⟨m, rfl, rfl, start⟩
  | act a k ih =>
      obtain ⟨m', ran, same, keeps⟩ := sim.1 m start
      change ∃ m'', (f a >>= fun r => (k r).hoist f).eval exec' live' m = _ ∧ _
      rw [eval_bind, ran]
      simp only [eval]
      cases h : live (exec a (view m)).1 with
      | true =>
          obtain ⟨m'', ran', same', keeps'⟩ := ih (exec a (view m)).2 (sim.2 _) keeps
          rw [same] at ran' same'
          exact ⟨m'', by simpa [h] using ran', by simpa [h] using same', keeps'⟩
      | false => exact ⟨m', rfl, by simpa [h] using same, keeps⟩

/-- The actions of a simulated program meet a check as those of the program do. -/
theorem hoist_meets {I : τ → Prop} {p : Prog A R α}
    (sim : p.All (Simulates exec live exec' live' f view I))
    (check : p.All fun a => ∀ m, I m → ((f a).Meets exec' live' ok' m ↔ ok a (view m))) {m : τ}
    (start : I m) : (p.hoist f).Meets exec' live' ok' m ↔ p.Meets exec live ok (view m) := by
  induction p generalizing m with
  | ret x => exact Iff.rfl
  | act a k ih =>
      obtain ⟨m', ran, same, keeps⟩ := sim.1 m start
      change (f a >>= fun r => (k r).hoist f).Meets exec' live' ok' m ↔ _
      rw [meets_bind, check.1 m start, ran]
      refine and_congr_right fun _ => ?_
      cases h : live (exec a (view m)).1 with
      | true =>
          have next := ih (exec a (view m)).2 (sim.2 _) (check.2 _) keeps
          rw [same] at next
          simpa using next
      | false => simp

end

/-! ### Refinement -/

section
variable (exec : (a : A) → σ → σ × R a) (live : σ → Bool)
variable (exec' : (b : B) → τ → τ × R' b) (live' : τ → Bool) (view : τ → σ)

/-- From every state with `P` the program `p` does what `q` does, seen through `view`:
both end, with related results, or both die. -/
def Refines (P : τ → Prop) (p : Prog B R' α) (q : Prog A R β) (Q : α → β → τ → Prop) : Prop :=
  ∀ m, P m → ∃ m' out, p.eval exec' live' m = (m', Option.map Prod.fst out) ∧
    q.eval exec live (view m) = (view m', Option.map Prod.snd out) ∧
    ∀ x y, out = some (x, y) → Q x y m'

variable {exec live exec' live' view} {γ δ : Type} {P : τ → Prop} {Q : α → β → τ → Prop}
variable {Q' : γ → δ → τ → Prop}

theorem Refines.ret {x : α} {y : β} (imp : ∀ m, P m → Q x y m) :
    Refines exec live exec' live' view P (pure x) (pure y) Q := by
  refine fun m pre => ⟨m, some (x, y), rfl, rfl, fun x' y' h => ?_⟩
  cases h
  exact imp m pre

theorem Refines.bind {p : Prog B R' α} {q : Prog A R β} {f : α → Prog B R' γ} {g : β → Prog A R δ}
    (first : Refines exec live exec' live' view P p q Q)
    (next : ∀ x y, Refines exec live exec' live' view (Q x y) (f x) (g y) Q') :
    Refines exec live exec' live' view P (p >>= f) (q >>= g) Q' := by
  intro m pre
  obtain ⟨m', out, ran, ran', post⟩ := first m pre
  rw [eval_bind, eval_bind, ran, ran']
  cases out with
  | none => exact ⟨m', none, rfl, rfl, fun _ _ h => by cases h⟩
  | some xy => exact next xy.1 xy.2 m' (post _ _ rfl)

theorem Refines.conseq {P' : τ → Prop} {Q' : α → β → τ → Prop} {p : Prog B R' α} {q : Prog A R β}
    (h : Refines exec live exec' live' view P p q Q) (pre : ∀ m, P' m → P m)
    (post : ∀ x y m, Q x y m → Q' x y m) : Refines exec live exec' live' view P' p q Q' := by
  intro m start
  obtain ⟨m', out, ran, ran', keeps⟩ := h m (pre m start)
  exact ⟨m', out, ran, ran', fun x y eq => post x y m' (keeps x y eq)⟩

/-- An action of the refinement alone, which the view does not show. -/
theorem Refines.left {b : B} {P' : R' b → τ → Prop} {k : R' b → Prog B R' α} {q : Prog A R β}
    (next : ∀ r, Refines exec live exec' live' view (P' r) (k r) q Q)
    (silent : ∀ m, P m → live' (exec' b m).1 = true ∧ view (exec' b m).1 = view m ∧
      P' (exec' b m).2 (exec' b m).1) :
    Refines exec live exec' live' view P (perform b >>= k) q Q := by
  intro m pre
  obtain ⟨alive, same, post⟩ := silent m pre
  obtain ⟨m', out, ran, ran', keeps⟩ := next _ _ post
  refine ⟨m', out, ?_, same ▸ ran', keeps⟩
  rw [eval_bind, eval_perform, if_pos alive]
  exact ran

/-- A program over the actions of another system, when each action is simulated. -/
theorem Refines.hoist {f : (a : A) → Prog B R' (R a)} {p : Prog A R α}
    (sim : p.All (Simulates exec live exec' live' f view P)) :
    Refines exec live exec' live' view (fun m => P m ∧ live' m = true) (p.hoist f) p
      fun x y m => x = y ∧ P m ∧ live' m = true := by
  rintro m ⟨start, alive⟩
  obtain ⟨m', ran, same, keeps⟩ := hoist_eval sim start
  refine ⟨m', (p.eval exec live (view m)).2.map fun x => (x, x), ?_, ?_, ?_⟩
  · rw [ran]
    cases (p.eval exec live (view m)).2 <;> rfl
  · rw [same]
    ext1
    · rfl
    · cases (p.eval exec live (view m)).2 <;> rfl
  · intro x y h
    obtain ⟨z, result, eq⟩ := Option.map_eq_some_iff.mp h
    cases eq
    rw [result] at ran
    exact ⟨rfl, keeps, eval_live alive ran⟩

end

end Prog

/-! ### One thread -/

namespace Sys

variable {σ A : Type} {R : A → Type} {α : Type}

/-- The system with one thread, the invariant `inv` and the admitted actions `ok`. -/
def alone (exec : (a : A) → σ → σ × R a) (live : σ → Bool) (inv : σ → Prop)
    (ok : A → σ → Prop) : Sys σ Unit A R where
  exec _ := exec
  live s _ := live s
  inv := inv
  rely _ s s' := s = s'
  ready _ _ := True
  admits _ := ok
  rely_trans h h' := h.trans h'
  ready_stable _ _ := trivial

variable {exec : (a : A) → σ → σ × R a} {live : σ → Bool} {inv : σ → Prop} {ok : A → σ → Prop}

theorem stable_alone (P : σ → Prop) : (alone exec live inv ok).Stable () P := by
  rintro s _ h rfl
  exact h

/-- One action. -/
theorem Triple.atOnce {P : σ → Prop} {a : A} {Q : R a → σ → Prop}
    (does : ∀ s, inv s → ok a s → P s → inv (exec a s).1 ∧
      (live (exec a s).1 = true → Q (exec a s).2 (exec a s).1)) :
    (alone exec live inv ok).Triple () P (Prog.perform a) Q := by
  refine Triple.perform (stable_alone P) fun s keeps _ admitted pre => ?_
  obtain ⟨keeps', post⟩ := does s keeps admitted pre
  exact ⟨_, _, rfl, keeps', fun t' ne => (ne rfl).elim, post⟩

/-- A program starts only while its thread is live. -/
theorem Triple.whileLive {P : σ → Prop} {Q : α → σ → Prop} {p : Prog A R α}
    (triple : (alone exec live inv ok).Triple () (fun s => live s = true ∧ P s) p Q) :
    (alone exec live inv ok).Triple () P p Q :=
  fun s start alive pre => triple s start alive ⟨alive, pre⟩

theorem Safe.also {inv' : σ → Prop} {Q Q' : α → σ → Prop} {p : Prog A R α} {s : σ}
    (imp : ∀ s, inv s → inv' s) (safe : (alone exec live inv ok).Safe () Q p s)
    (safe' : (alone exec live inv' ok).Safe () Q' p s) :
    (alone exec live inv ok).Safe () (fun x s => Q x s ∧ Q' x s) p s := by
  induction p generalizing s with
  | ret x => exact ⟨safe, safe'⟩
  | act a k ih =>
      rintro s' rely holds alive admitted
      obtain ⟨holds', guar, next⟩ := safe s' rely holds alive admitted
      obtain ⟨-, -, next'⟩ := safe' s' rely (imp s' holds) alive admitted
      exact ⟨holds', guar, fun live' => ih _ (next live') (next' live')⟩

/-- Two triples of one program, the second under a weaker invariant. -/
theorem Triple.also {inv' : σ → Prop} {P P' : σ → Prop} {Q Q' : α → σ → Prop} {p : Prog A R α}
    (triple : (alone exec live inv ok).Triple () P p Q)
    (triple' : (alone exec live inv' ok).Triple () P' p Q') (imp : ∀ s, inv s → inv' s) :
    (alone exec live inv ok).Triple () (fun s => P s ∧ P' s) p fun x s => Q x s ∧ Q' x s :=
  fun s start alive pre =>
    (triple s start alive pre.1).also imp (triple' s (imp s start) alive pre.2)

theorem Safe.eval {Q : α → σ → Prop} {p : Prog A R α} {s : σ}
    (safe : (alone exec live inv ok).Safe () Q p s) (start : inv s) (alive : live s = true)
    (meets : p.Meets exec live ok s) :
    inv (p.eval exec live s).1 ∧
      ∀ x, (p.eval exec live s).2 = some x → Q x (p.eval exec live s).1 := by
  induction p generalizing s with
  | ret x =>
      refine ⟨start, fun y h => ?_⟩
      cases h
      exact safe
  | act a k ih =>
      obtain ⟨keeps, -, next⟩ := safe s rfl start alive meets.1
      cases h : live (exec a s).1 with
      | true =>
          have := ih (exec a s).2 (s := (exec a s).1) (next h) keeps h (meets.2 h)
          simpa [Prog.eval, h] using this
      | false =>
          have keeps' : inv (exec a s).1 := keeps
          simpa [Prog.eval, h] using keeps'

/-- A program of one of several threads, run at once while the others are between two
programs: they still are after it. -/
theorem Safe.evalAmong {T : Type} {S : Sys σ T A R} {t : T} {Q : α → σ → Prop} {p : Prog A R α}
    {s : σ} (safe : S.Safe t Q p s) (refl : ∀ s, S.rely t s s) (admitted : ∀ a s, S.admits t a s)
    (start : S.inv s) (alive : S.live s t = true)
    (others : ∀ t', t' ≠ t → S.live s t' = true → S.ready t' s) :
    S.inv (p.eval (S.exec t) (S.live · t) s).1 ∧
      (∀ t', t' ≠ t → S.live (p.eval (S.exec t) (S.live · t) s).1 t' = true →
        S.ready t' (p.eval (S.exec t) (S.live · t) s).1) ∧
      (∀ x, (p.eval (S.exec t) (S.live · t) s).2 = some x →
        Q x (p.eval (S.exec t) (S.live · t) s).1) ∧
      (S.live (p.eval (S.exec t) (S.live · t) s).1 t = true →
        ∃ x, (p.eval (S.exec t) (S.live · t) s).2 = some x) := by
  induction p generalizing s with
  | ret x =>
      refine ⟨start, others, fun y h => ?_, fun _ => ⟨x, rfl⟩⟩
      cases h
      exact safe
  | act a k ih =>
      obtain ⟨keeps, guar, next⟩ := safe s (refl s) start alive (admitted a s)
      have others' : ∀ t', t' ≠ t → S.live (S.exec t a s).1 t' = true →
          S.ready t' (S.exec t a s).1 := by
        intro t' ne live
        obtain ⟨stay, begin⟩ := guar t' ne live
        cases was : S.live s t' with
        | true => exact S.ready_stable (others t' ne was) (stay was)
        | false => exact begin was
      cases h : S.live (S.exec t a s).1 t with
      | true =>
          have := ih (S.exec t a s).2 (s := (S.exec t a s).1) (next h) keeps h others'
          simpa [Prog.eval, h] using this
      | false => simpa [Prog.eval, h] using ⟨keeps, others'⟩

/-- What a triple says about the program run to its end. -/
theorem Triple.eval {P : σ → Prop} {Q : α → σ → Prop} {p : Prog A R α}
    (triple : (alone exec live inv ok).Triple () P p Q) {s : σ} (start : inv s)
    (alive : live s = true) (pre : P s) (meets : p.Meets exec live ok s) :
    inv (p.eval exec live s).1 ∧
      ∀ x, (p.eval exec live s).2 = some x → Q x (p.eval exec live s).1 :=
  (triple s start alive pre).eval start alive meets

/-- Where the invariant keeps the thread live, the program ends with a result. -/
theorem Triple.ends {P : σ → Prop} {Q : α → σ → Prop} {p : Prog A R α}
    (triple : (alone exec live inv ok).Triple () P p Q) (lasts : ∀ s, inv s → live s = true)
    {s : σ} (start : inv s) (pre : P s) (meets : p.Meets exec live ok s) :
    ∃ s' x, p.eval exec live s = (s', some x) ∧ inv s' ∧ Q x s' := by
  have safe := triple s start (lasts s start) pre
  clear triple pre
  induction p generalizing s with
  | ret x => exact ⟨s, x, rfl, start, safe⟩
  | act a k ih =>
      obtain ⟨keeps, -, next⟩ := safe s rfl start (lasts s start) meets.1
      have h : live (exec a s).1 = true := lasts _ keeps
      obtain ⟨s', x, ran, rest⟩ := ih (exec a s).2 (s := (exec a s).1) keeps (meets.2 h) (next h)
      exact ⟨s', x, by rwa [Prog.eval, if_pos h], rest⟩

end Sys

end OsKernel
