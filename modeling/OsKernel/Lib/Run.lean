/-
Runs of a deterministic system: a step function folded over a list of inputs.

Everything the kernel decides is a function of its state and of the inputs it
receives (a call, a fault, the outcome of an allocation), so a run is a list of
inputs. `run` is the state reached, `Along` says that a property holds in every
state visited, the first and the last included, and `StepsMeet` says that every
step taken meets a condition on the state before it. The rules are:

* `run_invariant`: a property that holds at the start and is kept by every step
  holds in the state that every run reaches;
* `along_of_stepsMeet`: a property kept by the steps that meet a condition holds
  along every run whose steps all meet it;
* `stepsMeet_of_stepsMeet`: the same for what such a step does;
* `stepsMeet_of_along`: when a step that breaks the condition breaks the
  property, the steps of a run along which the property holds all meet it;
* `answers_of_simulates`: two systems give the same answers in every run when
  every step from related states does.
-/

import Mathlib.Logic.Basic

namespace OsKernel.Run

variable {σ ι : Type}

/-- The state reached from `s` by the inputs, in order. -/
def run (step : σ → ι → σ) : σ → List ι → σ
  | s, [] => s
  | s, i :: is => run step (step s i) is

/-- Every state visited by the inputs satisfies `P`, the first and the last included. -/
def Along (step : σ → ι → σ) (P : σ → Prop) : σ → List ι → Prop
  | s, [] => P s
  | s, i :: is => P s ∧ Along step P (step s i) is

/-- Every step taken meets the condition `C` on the state before it and its input. -/
def StepsMeet (step : σ → ι → σ) (C : σ → ι → Prop) : σ → List ι → Prop
  | _, [] => True
  | s, i :: is => C s i ∧ StepsMeet step C (step s i) is

variable {step : σ → ι → σ}

@[simp] theorem run_nil (s : σ) : run step s [] = s := rfl

@[simp] theorem run_cons (s : σ) (i : ι) (is : List ι) :
    run step s (i :: is) = run step (step s i) is := rfl

theorem run_append (s : σ) (is js : List ι) :
    run step s (is ++ js) = run step (run step s is) js := by
  induction is generalizing s with
  | nil => rfl
  | cons i is ih => exact ih (step s i)

/-- A property kept by every step holds in the state every run reaches. -/
theorem run_invariant {P : σ → Prop} (keeps : ∀ s i, P s → P (step s i)) {s : σ} (start : P s)
    (is : List ι) : P (run step s is) := by
  induction is generalizing s with
  | nil => exact start
  | cons i is ih => exact ih (keeps s i start)

/-- A run whose steps all meet the condition keeps what such a step keeps. -/
theorem along_of_stepsMeet {C : σ → ι → Prop} {I P : σ → Prop} (gives : ∀ s, I s → P s)
    (keeps : ∀ s i, I s → C s i → I (step s i)) {s : σ} (start : I s) {is : List ι}
    (meet : StepsMeet step C s is) : Along step P s is := by
  induction is generalizing s with
  | nil => exact gives s start
  | cons i is ih => exact ⟨gives s start, ih (keeps s i start meet.1) meet.2⟩

/-- A run whose steps all meet the condition does what such a step does. -/
theorem stepsMeet_of_stepsMeet {C D : σ → ι → Prop} {I : σ → Prop}
    (gives : ∀ s i, I s → C s i → D s i) (keeps : ∀ s i, I s → C s i → I (step s i)) {s : σ}
    (start : I s) {is : List ι} (meet : StepsMeet step C s is) : StepsMeet step D s is := by
  induction is generalizing s with
  | nil => trivial
  | cons i is ih => exact ⟨gives s i start meet.1, ih (keeps s i start meet.1) meet.2⟩

/-- A property kept by every step holds along every run. -/
theorem along_of_invariant {P : σ → Prop} (keeps : ∀ s i, P s → P (step s i)) {s : σ}
    (start : P s) (is : List ι) : Along step P s is := by
  induction is generalizing s with
  | nil => exact start
  | cons i is ih => exact ⟨start, ih (keeps s i start)⟩

theorem Along.mono {P Q : σ → Prop} (weaker : ∀ s, P s → Q s) {s : σ} {is : List ι}
    (h : Along step P s is) : Along step Q s is := by
  induction is generalizing s with
  | nil => exact weaker s h
  | cons i is ih => exact ⟨weaker s h.1, ih h.2⟩

theorem Along.and {P Q : σ → Prop} {s : σ} {is : List ι} (h : Along step P s is)
    (k : Along step Q s is) : Along step (fun s => Q s ∧ P s) s is := by
  induction is generalizing s with
  | nil => exact ⟨k, h⟩
  | cons i is ih => exact ⟨⟨k.1, h.1⟩, ih h.2 k.2⟩

/-- The condition holds at each step of the run. -/
theorem StepsMeet.at {C : σ → ι → Prop} {s : σ} {i : ι} (is js : List ι)
    (h : StepsMeet step C s (is ++ i :: js)) : C (run step s is) i := by
  induction is generalizing s with
  | nil => exact h.1
  | cons j is ih => exact ih h.2

theorem StepsMeet.append {C : σ → ι → Prop} {s : σ} {is js : List ι} (h : StepsMeet step C s is)
    (k : StepsMeet step C (run step s is) js) : StepsMeet step C s (is ++ js) := by
  induction is generalizing s with
  | nil => exact k
  | cons i is ih => exact ⟨h.1, ih h.2 k⟩

theorem StepsMeet.mono {C D : σ → ι → Prop} (weaker : ∀ s i, C s i → D s i) {s : σ} {is : List ι}
    (h : StepsMeet step C s is) : StepsMeet step D s is := by
  induction is generalizing s with
  | nil => trivial
  | cons i is ih => exact ⟨weaker s i h.1, ih h.2⟩

theorem StepsMeet.and {C D : σ → ι → Prop} {s : σ} {is : List ι} (h : StepsMeet step C s is)
    (k : StepsMeet step D s is) : StepsMeet step (fun s i => C s i ∧ D s i) s is := by
  induction is generalizing s with
  | nil => trivial
  | cons i is ih => exact ⟨⟨h.1, k.1⟩, ih h.2 k.2⟩

instance StepsMeet.decidable {C : σ → ι → Prop} [∀ s i, Decidable (C s i)] :
    ∀ (s : σ) (is : List ι), Decidable (StepsMeet step C s is)
  | _, [] => .isTrue trivial
  | s, i :: is =>
    have : Decidable (StepsMeet step C (step s i) is) := StepsMeet.decidable (step s i) is
    inferInstanceAs (Decidable (C s i ∧ StepsMeet step C (step s i) is))

theorem Along.head {P : σ → Prop} {s : σ} {is : List ι} (h : Along step P s is) : P s := by
  cases is with
  | nil => exact h
  | cons i is => exact h.1

theorem Along.last {P : σ → Prop} {s : σ} {is : List ι} (h : Along step P s is) :
    P (run step s is) := by
  induction is generalizing s with
  | nil => exact h
  | cons i is ih => exact ih h.2

/-- Where a step that misses the condition breaks the property, a run along which
the property holds meets the condition at every step. -/
theorem stepsMeet_of_along {C : σ → ι → Prop} {P : σ → Prop}
    (breaks : ∀ s i, P s → P (step s i) → C s i) {s : σ} {is : List ι}
    (h : Along step P s is) : StepsMeet step C s is := by
  induction is generalizing s with
  | nil => trivial
  | cons i is ih => exact ⟨breaks s i h.1 h.2.head, ih h.2⟩

/-- The same, with an invariant that the condition keeps. -/
theorem stepsMeet_of_along_inv {C : σ → ι → Prop} {I P : σ → Prop}
    (breaks : ∀ s i, I s → P (step s i) → C s i) (keeps : ∀ s i, I s → C s i → I (step s i))
    {s : σ} (start : I s) {is : List ι} (h : Along step P s is) : StepsMeet step C s is := by
  induction is generalizing s with
  | nil => trivial
  | cons i is ih =>
      have meets := breaks s i start h.2.head
      exact ⟨meets, ih (keeps s i start meets) h.2⟩

/-- A condition that the inputs meet in every state. -/
theorem stepsMeet_of_inputs {C : σ → ι → Prop} {is : List ι} (meet : ∀ i ∈ is, ∀ s, C s i) (s : σ) :
    StepsMeet step C s is := by
  induction is generalizing s with
  | nil => trivial
  | cons i is ih =>
      exact ⟨meet i List.mem_cons_self s, ih (fun j mem => meet j (List.mem_cons_of_mem i mem)) _⟩

/-! ### Systems that answer -/

section
variable {τ ρ : Type}

/-- The answers to the inputs, in order. -/
def answers (step : σ → ι → σ × ρ) : σ → List ι → List ρ
  | _, [] => []
  | s, i :: is => (step s i).2 :: answers step (step s i).1 is

/-- Two systems give the same answers in every run when a step from related states gives the
same answer and leads to related states. -/
theorem answers_of_simulates {step : σ → ι → σ × ρ} {step' : τ → ι → τ × ρ} {R : σ → τ → Prop}
    (simulates : ∀ s t i, R s t → (step s i).2 = (step' t i).2 ∧ R (step s i).1 (step' t i).1)
    {s : σ} {t : τ} (start : R s t) (is : List ι) :
    answers step s is = answers step' t is ∧
      R (run (fun s i => (step s i).1) s is) (run (fun t i => (step' t i).1) t is) := by
  induction is generalizing s t with
  | nil => exact ⟨rfl, start⟩
  | cons i is ih =>
      obtain ⟨same, next⟩ := simulates s t i start
      obtain ⟨rest, last⟩ := ih next
      exact ⟨by rw [answers, answers, same, rest], last⟩

end

end OsKernel.Run
