/-
Sets of numbers as lists of ranges.

A list of ranges is `Spaced` when its ranges are nonempty, sorted, and no two of them touch:
then each range is a maximal one, and the list is determined by the set that it covers
(`Spaced.ext`). An interval lies in the set exactly when it lies in one of the ranges
(`Spaced.Ico_subset`). `carve` cuts a piece out of one range and `join` puts one in, melting it
with the ranges that it touches; both keep the list spaced, and change the set and the number
of its elements as they should.
-/

import Mathlib.Data.List.Induction
import Mathlib.Data.List.Pairwise
import Mathlib.Data.Set.Card
import Mathlib.Order.Interval.Finset.Nat
import Mathlib.Order.Interval.Set.LinearOrder
import Mathlib.Algebra.BigOperators.Group.List.Basic
import Mathlib.Tactic.Common

namespace OsKernel

structure Range where
  start : Nat
  size : Nat
deriving DecidableEq

namespace Range

/-- The first number after the range. -/
def stop (r : Range) : Nat := r.start + r.size

/-- The numbers in one of the ranges. -/
def cover (l : List Range) : Set Nat := {x | ∃ r ∈ l, x ∈ Set.Ico r.start r.stop}

/-- How many numbers there are in the ranges. -/
def total (l : List Range) : Nat := (l.map size).sum

variable {l l' before after : List Range} {r : Range} {x c k : Nat}

@[simp] theorem cover_nil : cover [] = ∅ := by
  ext x
  simp [cover]

@[simp] theorem cover_cons (r : Range) (l : List Range) :
    cover (r :: l) = Set.Ico r.start r.stop ∪ cover l := by
  ext x
  simp [cover]

@[simp] theorem cover_append (l l' : List Range) : cover (l ++ l') = cover l ∪ cover l' := by
  ext x
  simp [cover, or_and_right, exists_or]

@[simp] theorem total_nil : total [] = 0 := rfl

@[simp] theorem total_cons (r : Range) (l : List Range) : total (r :: l) = r.size + total l := by
  simp [total]

@[simp] theorem total_append (l l' : List Range) : total (l ++ l') = total l + total l' := by
  simp [total]

/-- No range is empty, and there are numbers between each range and the next. -/
structure Spaced (l : List Range) : Prop where
  nonempty : ∀ r ∈ l, 0 < r.size
  apart : l.Pairwise fun r r' => r.stop < r'.start

theorem Spaced.nil : Spaced [] := ⟨by simp, .nil⟩

theorem spaced_cons :
    Spaced (r :: l) ↔ 0 < r.size ∧ (∀ r' ∈ l, r.stop < r'.start) ∧ Spaced l := by
  constructor
  · intro h
    have apart := List.pairwise_cons.mp h.apart
    exact ⟨h.nonempty r List.mem_cons_self, apart.1,
      fun r' mem => h.nonempty r' (List.mem_cons_of_mem r mem), apart.2⟩
  · intro h
    constructor
    · intro r' mem
      cases mem with
      | head => exact h.1
      | tail _ mem => exact h.2.2.nonempty r' mem
    · exact .cons h.2.1 h.2.2.apart

theorem spaced_append :
    Spaced (l ++ l') ↔ Spaced l ∧ Spaced l' ∧ ∀ r ∈ l, ∀ r' ∈ l', r.stop < r'.start := by
  constructor
  · intro h
    have apart := List.pairwise_append.mp h.apart
    exact ⟨⟨fun r mem => h.nonempty r (List.mem_append_left l' mem), apart.1⟩,
      ⟨fun r mem => h.nonempty r (List.mem_append_right l mem), apart.2.1⟩, apart.2.2⟩
  · intro h
    constructor
    · intro r mem
      exact (List.mem_append.mp mem).elim (h.1.nonempty r) (h.2.1.nonempty r)
    · exact List.pairwise_append.mpr ⟨h.1.apart, h.2.1.apart, h.2.2⟩

/-- A number after which the whole set comes is in it only as the start of the first range. -/
theorem Spaced.start_le (h : Spaced (r :: l)) (mem : x ∈ cover (r :: l)) : r.start ≤ x := by
  obtain ⟨q, mem, low, -⟩ := mem
  cases mem with
  | head => exact low
  | tail _ mem =>
      have := (spaced_cons.mp h).2.1 q mem
      simp only [stop] at this
      omega

theorem Spaced.start_mem (h : Spaced l) (mem : r ∈ l) : r.start ∈ cover l :=
  ⟨r, mem, le_refl _, Nat.lt_add_of_pos_right (h.nonempty r mem)⟩

/-- Behind a range there is a gap. -/
theorem Spaced.stop_notMem (h : Spaced l) (mem : r ∈ l) : r.stop ∉ cover l := by
  rintro ⟨q, memq, low, high⟩
  simp only [stop] at low high
  have pos := h.nonempty r mem
  obtain ⟨left, right, rfl⟩ := List.append_of_mem mem
  have spaced := spaced_append.mp h
  have later := (spaced_cons.mp spaced.2.1).2.1
  rcases List.mem_append.mp memq with inLeft | inRight
  · have := spaced.2.2 q inLeft r List.mem_cons_self
    simp only [stop] at this
    omega
  · rcases List.mem_cons.mp inRight with rfl | inRight
    · omega
    · have := later q inRight
      simp only [stop] at this
      omega

/-- The rest of the ranges, as a set. -/
theorem Spaced.cover_tail (h : Spaced (r :: l)) :
    cover l = cover (r :: l) \ Set.Ico r.start r.stop := by
  ext x
  rw [cover_cons]
  constructor
  · intro mem
    refine ⟨.inr mem, fun inside => ?_⟩
    obtain ⟨q, memq, low, -⟩ := mem
    have := (spaced_cons.mp h).2.1 q memq
    have := inside.2
    omega
  · rintro ⟨inside | mem, outside⟩
    · exact absurd inside outside
    · exact mem

/-- An interval lies in the set exactly when it lies in one of the ranges. -/
theorem Spaced.Ico_subset {a b : Nat} (h : Spaced l) (lt : a < b) :
    Set.Ico a b ⊆ cover l ↔ ∃ r ∈ l, r.start ≤ a ∧ b ≤ r.stop := by
  constructor
  · intro sub
    obtain ⟨r, mem, low, high⟩ := sub ⟨le_refl a, lt⟩
    refine ⟨r, mem, low, ?_⟩
    by_contra past
    exact h.stop_notMem mem (sub ⟨high.le, not_le.mp past⟩)
  · rintro ⟨r, mem, low, high⟩ x ⟨above, below⟩
    exact ⟨r, mem, low.trans above, below.trans_le high⟩

/-- The set determines the ranges. -/
theorem Spaced.ext (h : Spaced l) (h' : Spaced l') (same : cover l = cover l') : l = l' := by
  induction l generalizing l' with
  | nil =>
      cases l' with
      | nil => rfl
      | cons r' l' => exact absurd (same ▸ h'.start_mem List.mem_cons_self) (by simp)
  | cons r l ih =>
      cases l' with
      | nil => exact absurd (same ▸ h.start_mem List.mem_cons_self) (by simp)
      | cons r' l' =>
          have starts : r.start = r'.start := le_antisymm
            (h.start_le (same ▸ h'.start_mem List.mem_cons_self))
            (h'.start_le (same ▸ h.start_mem List.mem_cons_self))
          have half : ∀ {p p' : Range} {t t' : List Range}, Spaced (p :: t) → Spaced (p' :: t') →
              p.start = p'.start → cover (p :: t) = cover (p' :: t') → p'.stop ≤ p.stop := by
            intro p p' t t' hp hp' start same
            have pos := hp.nonempty p List.mem_cons_self
            by_contra past
            refine hp.stop_notMem List.mem_cons_self (same ▸ ?_)
            refine ⟨p', List.mem_cons_self, ?_, not_le.mp past⟩
            simp only [stop]
            omega
          have stops : r.stop = r'.stop := le_antisymm (half h' h starts.symm same.symm)
            (half h h' starts same)
          have head : r = r' := by
            obtain ⟨start, size⟩ := r
            obtain ⟨start', size'⟩ := r'
            simp only [stop] at starts stops
            simp only [mk.injEq]
            omega
          subst head
          rw [ih (spaced_cons.mp h).2.2 (spaced_cons.mp h').2.2
            (h.cover_tail.trans (by rw [same, ← h'.cover_tail]))]

/-- Between two bounds there is room for so many numbers only. -/
theorem Spaced.total_le {lo hi : Nat} (h : Spaced l) (le : lo ≤ hi)
    (within : ∀ r ∈ l, lo ≤ r.start ∧ r.stop ≤ hi) : total l ≤ hi - lo := by
  induction l generalizing lo with
  | nil => simp
  | cons r l ih =>
      obtain ⟨-, later, rest⟩ := spaced_cons.mp h
      have bounds := within r List.mem_cons_self
      have tail : total l ≤ hi - r.stop := ih rest bounds.2 fun q mem =>
        ⟨(later q mem).le, (within q (List.mem_cons_of_mem r mem)).2⟩
      simp only [stop] at bounds tail
      simp only [total_cons]
      omega

/-- Ranges of at least `n` numbers. -/
theorem length_mul_le (n : Nat) (large : ∀ r ∈ l, n ≤ r.size) : n * l.length ≤ total l := by
  induction l with
  | nil => simp
  | cons r l ih =>
      have head := large r List.mem_cons_self
      have tail := ih fun q mem => large q (List.mem_cons_of_mem r mem)
      simp only [List.length_cons, total_cons, Nat.mul_succ]
      omega

/-! ### Counting -/

theorem ncard_Ico (a n : Nat) : (Set.Ico a (a + n)).ncard = n := by
  rw [← Finset.coe_Ico, Set.ncard_coe_finset, Nat.card_Ico]
  omega

theorem cover_finite (l : List Range) : (cover l).Finite := by
  induction l with
  | nil => simp
  | cons r l ih =>
      rw [cover_cons]
      exact (Set.finite_Ico r.start r.stop).union ih

/-- How many numbers the ranges cover. -/
theorem Spaced.ncard_cover {l : List Range} (h : Spaced l) : (cover l).ncard = total l := by
  induction l with
  | nil => simp
  | cons r l ih =>
      have apart : Disjoint (Set.Ico r.start r.stop) (cover l) := by
        rw [h.cover_tail]
        exact Set.disjoint_sdiff_right
      rw [cover_cons, Set.ncard_union_eq apart (Set.finite_Ico _ _) (cover_finite l),
        ih (spaced_cons.mp h).2.2, total_cons, stop, ncard_Ico]
/-! ### Cutting a piece out -/

/-- What is left of a range without the `k` numbers from `c` on. -/
def carve (r : Range) (c k : Nat) : List Range :=
  (if r.start < c then [⟨r.start, c - r.start⟩] else []) ++
    if c + k < r.stop then [⟨c + k, r.stop - (c + k)⟩] else []

/-- A piece of a range. -/
theorem of_mem_carve {q : Range} (low : r.start ≤ c) (high : c + k ≤ r.stop)
    (mem : q ∈ carve r c k) : r.start ≤ q.start ∧ q.stop ≤ r.stop ∧ 0 < q.size := by
  simp only [carve, List.mem_append] at mem
  rcases mem with mem | mem
  all_goals
    split at mem
    · obtain rfl := List.mem_singleton.mp mem
      simp only [stop] at *
      omega
    · cases mem

theorem spaced_carve (low : r.start ≤ c) (high : c + k ≤ r.stop) (pos : 0 < k) :
    Spaced (carve r c k) := by
  constructor
  · intro q mem
    exact (of_mem_carve low high mem).2.2
  · simp only [carve]
    split <;> split <;> simp [stop]
    omega

theorem cover_carve (low : r.start ≤ c) (high : c + k ≤ r.stop) :
    cover (carve r c k) = Set.Ico r.start r.stop \ Set.Ico c (c + k) := by
  ext x
  simp only [carve, cover_append, Set.mem_union, Set.mem_sdiff, Set.mem_Ico]
  simp only [stop] at *
  by_cases front : r.start < c <;> by_cases back : c + k < r.start + r.size
  all_goals
    simp [front, back, stop]
    omega

theorem total_carve (low : r.start ≤ c) (high : c + k ≤ r.stop) :
    total (carve r c k) + k = r.size := by
  simp only [carve, total_append]
  simp only [stop] at *
  by_cases front : r.start < c <;> by_cases back : c + k < r.start + r.size
  all_goals
    simp [front, back]
    omega

/-- A piece of one range of the list, and the others. -/
theorem Spaced.carve (h : Spaced (before ++ r :: after)) (low : r.start ≤ c)
    (high : c + k ≤ r.stop) (pos : 0 < k) : Spaced (before ++ (carve r c k ++ after)) := by
  obtain ⟨left, right, gap⟩ := spaced_append.mp h
  obtain ⟨-, later, right⟩ := spaced_cons.mp right
  refine spaced_append.mpr ⟨left, spaced_append.mpr ⟨spaced_carve low high pos, right, ?_⟩, ?_⟩
  · intro q mem q' mem'
    exact (of_mem_carve low high mem).2.1.trans_lt (later q' mem')
  · intro q mem q' mem'
    rcases List.mem_append.mp mem' with piece | mem'
    · exact (gap q mem r List.mem_cons_self).trans_le (of_mem_carve low high piece).1
    · exact gap q mem q' (List.mem_cons_of_mem r mem')

theorem Spaced.cover_carve (h : Spaced (before ++ r :: after)) (low : r.start ≤ c)
    (high : c + k ≤ r.stop) :
    cover (before ++ (Range.carve r c k ++ after)) =
      cover (before ++ r :: after) \ Set.Ico c (c + k) := by
  obtain ⟨-, right, gap⟩ := spaced_append.mp h
  have later := (spaced_cons.mp right).2.1
  have keep : ∀ q ∈ before ++ after, ∀ x ∈ Set.Ico q.start q.stop, x ∉ Set.Ico c (c + k) := by
    intro q mem x inside hit
    have above := inside.1.trans_lt hit.2
    have below := hit.1.trans_lt inside.2
    rcases List.mem_append.mp mem with mem | mem
    · have := gap q mem r List.mem_cons_self
      omega
    · have := later q mem
      omega
  ext x
  simp only [cover_append, cover_cons, Range.cover_carve low high, Set.mem_union, Set.mem_sdiff]
  constructor
  · rintro (mem | mem | mem)
    · obtain ⟨q, memq, inside⟩ := mem
      exact ⟨.inl ⟨q, memq, inside⟩, keep q (List.mem_append_left _ memq) x inside⟩
    · exact ⟨.inr (.inl mem.1), mem.2⟩
    · obtain ⟨q, memq, inside⟩ := mem
      exact ⟨.inr (.inr ⟨q, memq, inside⟩), keep q (List.mem_append_right _ memq) x inside⟩
  · rintro ⟨mem | mem | mem, outside⟩
    · exact .inl mem
    · exact .inr (.inl ⟨mem, outside⟩)
    · exact .inr (.inr mem)

/-! ### Putting a piece in -/

/-- A range before others, melted with the next one when they touch. -/
def joinRight (r : Range) : List Range → List Range
  | [] => [r]
  | q :: l => if r.stop = q.start then ⟨r.start, r.size + q.size⟩ :: l else r :: q :: l

/-- A range between others, melted with its neighbours when they touch. -/
def join (before : List Range) (r : Range) (after : List Range) : List Range :=
  match before.getLast? with
  | none => joinRight r after
  | some p =>
      if p.stop = r.start then before.dropLast ++ joinRight ⟨p.start, p.size + r.size⟩ after
      else before ++ joinRight r after

theorem joinRight_spec (pos : 0 < r.size) (right : Spaced after)
    (later : ∀ q ∈ after, r.stop ≤ q.start) :
    Spaced (joinRight r after) ∧ cover (joinRight r after) = cover (r :: after) ∧
      total (joinRight r after) = total (r :: after) ∧
      ∀ q ∈ joinRight r after, r.start ≤ q.start ∧ (q.start = r.start ∨ q ∈ after) := by
  cases after with
  | nil => exact ⟨spaced_cons.mpr ⟨pos, by simp, .nil⟩, rfl, rfl, by simp [joinRight]⟩
  | cons q after =>
      obtain ⟨posq, apart, rest⟩ := spaced_cons.mp right
      have first := later q List.mem_cons_self
      rw [joinRight]
      split
      · rename_i touch
        have stops : (⟨r.start, r.size + q.size⟩ : Range).stop = q.stop := by
          simp only [stop] at *
          omega
        refine ⟨spaced_cons.mpr ⟨by simp only; omega, by rwa [stops], rest⟩, ?_, ?_, ?_⟩
        · have whole : Set.Ico r.start q.stop = Set.Ico r.start r.stop ∪ Set.Ico q.start q.stop := by
            have low : r.start ≤ r.stop := Nat.le_add_right _ _
            have high : r.stop ≤ q.stop := touch ▸ Nat.le_add_right _ _
            rw [← touch, Set.Ico_union_Ico_eq_Ico low high]
          rw [cover_cons, stops, whole, cover_cons, cover_cons, Set.union_assoc]
        · simp only [total_cons]
          omega
        · intro p mem
          rcases List.mem_cons.mp mem with rfl | mem
          · exact ⟨le_refl _, .inl rfl⟩
          · have := later p (List.mem_cons_of_mem q mem)
            simp only [stop] at this
            exact ⟨by omega, .inr (List.mem_cons_of_mem q mem)⟩
      · rename_i gap
        refine ⟨spaced_cons.mpr ⟨pos, ?_, right⟩, rfl, rfl, ?_⟩
        · intro p mem
          rcases List.mem_cons.mp mem with rfl | mem
          · omega
          · have := apart p mem
            simp only [stop] at *
            omega
        · intro p mem
          rcases List.mem_cons.mp mem with rfl | mem
          · exact ⟨le_refl _, .inl rfl⟩
          · have := later p mem
            simp only [stop] at this
            exact ⟨by omega, .inr mem⟩

theorem join_spec (h : Spaced (before ++ after)) (pos : 0 < r.size)
    (earlier : ∀ q ∈ before, q.stop ≤ r.start) (later : ∀ q ∈ after, r.stop ≤ q.start) :
    Spaced (join before r after) ∧
      cover (join before r after) = cover (before ++ after) ∪ Set.Ico r.start r.stop ∧
      total (join before r after) = total (before ++ after) + r.size := by
  obtain ⟨left, right, gap⟩ := spaced_append.mp h
  have single := joinRight_spec pos right later
  have assoc : ∀ u v w : Set Nat, u ∪ (v ∪ w) = u ∪ w ∪ v := fun u v w => by
    rw [Set.union_comm v w, Set.union_assoc]
  induction before using List.reverseRecOn with
  | nil =>
      simp only [join, List.getLast?_nil, List.nil_append]
      refine ⟨single.1, ?_, ?_⟩
      · rw [single.2.1, cover_cons, Set.union_comm]
      · rw [single.2.2.1, total_cons, Nat.add_comm]
  | append_singleton before p _ =>
      simp only [join, List.getLast?_append, List.getLast?_singleton, Option.some_or,
        List.dropLast_concat]
      have before_p : p.stop ≤ r.start := earlier p (by simp)
      split
      · rename_i touch
        have stops : (⟨p.start, p.size + r.size⟩ : Range).stop = r.stop := by
          simp only [stop] at *
          omega
        have posp := left.nonempty p (by simp)
        have melted := joinRight_spec (r := ⟨p.start, p.size + r.size⟩) (by simp only; omega) right
          (by rwa [stops])
        obtain ⟨leftmost, -, gaps⟩ := spaced_append.mp left
        refine ⟨spaced_append.mpr ⟨leftmost, melted.1, ?_⟩, ?_, ?_⟩
        · intro q mem q' mem'
          exact (gaps q mem p (by simp)).trans_le (melted.2.2.2 q' mem').1
        · ext x
          simp only [cover_append, cover_cons, cover_nil, melted.2.1, stops, Set.mem_union,
            Set.mem_Ico, Set.mem_empty_iff_false, or_false]
          simp only [stop] at *
          constructor
          · rintro (mem | mem | mem)
            · exact .inl (.inl (.inl mem))
            · by_cases x < p.start + p.size
              · exact .inl (.inl (.inr (by omega)))
              · exact .inr (by omega)
            · exact .inl (.inr mem)
          · rintro (((mem | mem) | mem) | mem)
            · exact .inl mem
            · exact .inr (.inl (by omega))
            · exact .inr (.inr mem)
            · exact .inr (.inl (by omega))
        · simp only [total_append, total_cons, total_nil, melted.2.2.1]
          omega
      · rename_i apart
        refine ⟨spaced_append.mpr ⟨left, single.1, ?_⟩, ?_, ?_⟩
        · intro q mem q' mem'
          rcases (single.2.2.2 q' mem').2 with start | old
          · rcases List.mem_append.mp mem with mem | mem
            · have := (spaced_append.mp left).2.2 q mem p (by simp)
              have := left.nonempty p (by simp)
              simp only [stop] at *
              omega
            · obtain rfl := List.mem_singleton.mp mem
              omega
          · exact gap q mem q' old
        · rw [cover_append _ (joinRight r after), single.2.1, cover_cons r, cover_append _ after,
            assoc]
        · simp only [total_append, total_cons, single.2.2.1]
          omega

/-- Where the ranges begin and end. -/
theorem of_mem_joinRight {q : Range} (mem : q ∈ joinRight r after) :
    (q.start = r.start ∨ ∃ p ∈ after, q.start = p.start) ∧
      (q.stop = r.stop ∨ ∃ p ∈ after, q.stop = p.stop) := by
  have old : ∀ p ∈ after, (p.start = r.start ∨ ∃ p' ∈ after, p.start = p'.start) ∧
      (p.stop = r.stop ∨ ∃ p' ∈ after, p.stop = p'.stop) :=
    fun p mem => ⟨.inr ⟨p, mem, rfl⟩, .inr ⟨p, mem, rfl⟩⟩
  cases after with
  | nil =>
      obtain rfl := List.mem_singleton.mp mem
      exact ⟨.inl rfl, .inl rfl⟩
  | cons p after =>
      rw [joinRight] at mem
      split at mem
      · rename_i touch
        rcases List.mem_cons.mp mem with rfl | mem
        · refine ⟨.inl rfl, .inr ⟨p, List.mem_cons_self, ?_⟩⟩
          simp only [stop] at *
          omega
        · exact old q (List.mem_cons_of_mem p mem)
      · rcases List.mem_cons.mp mem with rfl | mem
        · exact ⟨.inl rfl, .inl rfl⟩
        · exact old q mem

theorem of_mem_join {q : Range} (mem : q ∈ join before r after) :
    (q.start = r.start ∨ ∃ p ∈ before ++ after, q.start = p.start) ∧
      (q.stop = r.stop ∨ ∃ p ∈ before ++ after, q.stop = p.stop) := by
  have right : ∀ {r' : Range}, q ∈ joinRight r' after →
      (q.start = r'.start ∨ ∃ p ∈ before ++ after, q.start = p.start) ∧
        (q.stop = r'.stop ∨ ∃ p ∈ before ++ after, q.stop = p.stop) := by
    intro r' mem
    obtain ⟨start, stop⟩ := of_mem_joinRight mem
    refine ⟨start.imp_right ?_, stop.imp_right ?_⟩
    all_goals
      rintro ⟨p, mem, same⟩
      exact ⟨p, List.mem_append_right before mem, same⟩
  induction before using List.reverseRecOn with
  | nil => exact right mem
  | append_singleton before p _ =>
      simp only [join, List.getLast?_append, List.getLast?_singleton, Option.some_or,
        List.dropLast_concat] at mem
      have old : ∀ q ∈ before ++ [p], (q.start = r.start ∨
          ∃ b ∈ before ++ [p] ++ after, q.start = b.start) ∧ (q.stop = r.stop ∨
            ∃ b ∈ before ++ [p] ++ after, q.stop = b.stop) := fun q mem =>
        ⟨.inr ⟨q, List.mem_append_left _ mem, rfl⟩, .inr ⟨q, List.mem_append_left _ mem, rfl⟩⟩
      split at mem
      · rename_i touch
        rcases List.mem_append.mp mem with mem | mem
        · exact old q (List.mem_append_left _ mem)
        · obtain ⟨start, stop⟩ := right mem
          refine ⟨start.elim (fun same => .inr ⟨p, by simp, same⟩) .inr, stop.imp_left ?_⟩
          intro same
          rw [same]
          simp only [Range.stop] at *
          omega
      · rcases List.mem_append.mp mem with mem | mem
        · exact old q mem
        · exact right mem

end Range

end OsKernel
