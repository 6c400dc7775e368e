/-
The arguments on the stack of a new program.

`push_val` makes room below the stack pointer, rounded down to a word, and maps the pages
it needs; so values that are pushed one after another lie below each other (`layout`), and
what one push has written no later one touches. `Grown` is what pushing leaves: every page
from the lowest value to the top has a frame of its own, and every value is where the
layout says.
-/

import OsKernel.Loader.Plan

namespace OsKernel.Loader

open OsKernel.Vm OsKernel.Memory OsKernel.Syscall Prog

/-! ### Where values go -/

/-- The page holds some address of the range. -/
def InRange (low top q : Nat) : Prop := ∃ w, low ≤ w ∧ w < top ∧ pageOf w = q

/-- Where a value of `n` bytes goes that is pushed at `top`. -/
def pushTo (top n : Nat) : Nat := (top - n) / 4 * 4

/-- Where values go that are pushed one after another. -/
def layout : Nat → List (List UInt8) → List (Nat × List UInt8)
  | _, [] => []
  | top, val :: vals => (pushTo top val.length, val) :: layout (pushTo top val.length) vals

/-- The stack pointer when all is pushed. -/
def bottom (top : Nat) (vals : List (List UInt8)) : Nat :=
  vals.foldl (fun top val => pushTo top val.length) top

theorem layout_append (top : Nat) (vals vals' : List (List UInt8)) :
    layout top (vals ++ vals') = layout top vals ++ layout (bottom top vals) vals' := by
  induction vals generalizing top with
  | nil => rfl
  | cons val vals ih => exact congrArg _ (ih _)

theorem bottom_append (top : Nat) (vals vals' : List (List UInt8)) :
    bottom top (vals ++ vals') = bottom (bottom top vals) vals' := by
  simp only [bottom, List.foldl_append]

theorem layout_snd (top : Nat) (vals : List (List UInt8)) : (layout top vals).map (·.2) = vals := by
  induction vals generalizing top with
  | nil => rfl
  | cons val vals ih => exact congrArg _ (ih _)

theorem bottom_eq (top : Nat) (vals : List (List UInt8)) :
    bottom top vals = ((layout top vals).map (·.1)).getLast?.getD top := by
  induction vals generalizing top with
  | nil => rfl
  | cons val vals ih =>
      refine (ih _).trans ?_
      rw [layout, List.map_cons, List.getLast?_cons]
      rfl

theorem pushTo_le (top n : Nat) : pushTo top n ≤ top := by
  unfold pushTo
  omega

theorem bottom_le (top : Nat) (vals : List (List UInt8)) : bottom top vals ≤ top := by
  induction vals generalizing top with
  | nil => exact Nat.le_refl _
  | cons val vals ih => exact Nat.le_trans (ih _) (pushTo_le top val.length)

/-- A value that does not underflow lies below the top. -/
theorem pushTo_add_le {top n : Nat} (pos : 0 < pushTo top n) : pushTo top n + n ≤ top := by
  unfold pushTo at *
  omega

/-- Values lie between the bottom and the top, each below the one pushed before it. -/
theorem layout_order {top : Nat} {vals : List (List UInt8)} (pos : 0 < bottom top vals) :
    (∀ e ∈ layout top vals, bottom top vals ≤ e.1 ∧ e.1 + e.2.length ≤ top) ∧
      (layout top vals).Pairwise fun e e' => e'.1 + e'.2.length ≤ e.1 := by
  induction vals generalizing top with
  | nil =>
      refine ⟨fun e mem => ?_, .nil⟩
      cases mem
  | cons val vals ih =>
      obtain ⟨within, order⟩ := ih (show 0 < bottom (pushTo top val.length) vals from pos)
      have low : bottom (pushTo top val.length) vals ≤ pushTo top val.length := bottom_le _ _
      have room : pushTo top val.length + val.length ≤ top :=
        pushTo_add_le (Nat.lt_of_lt_of_le pos low)
      refine ⟨fun e mem => ?_, .cons (fun e mem => (within e mem).2) order⟩
      rcases List.mem_cons.mp mem with rfl | mem
      · exact ⟨low, room⟩
      · have here := within e mem
        exact ⟨here.1, by omega⟩

/-- Two values do not overlap. -/
theorem layout_apart {top : Nat} {vals : List (List UInt8)} (pos : 0 < bottom top vals)
    {e e' : Nat × List UInt8} (mem : e ∈ layout top vals) (mem' : e' ∈ layout top vals)
    (ne : e ≠ e') : e.1 + e.2.length ≤ e'.1 ∨ e'.1 + e'.2.length ≤ e.1 := by
  let Apart (e e' : Nat × List UInt8) : Prop :=
    e.1 + e.2.length ≤ e'.1 ∨ e'.1 + e'.2.length ≤ e.1
  have symm : Std.Symm Apart := ⟨fun _ _ h => h.symm⟩
  have order : (layout top vals).Pairwise Apart := (layout_order pos).2.imp fun below => .inr below
  exact order.forall mem mem' ne

/-- Every address of the layout but the top is a multiple of 4. -/
theorem bottom_dvd {top : Nat} (aligned : 4 ∣ top) (vals : List (List UInt8)) :
    4 ∣ bottom top vals := by
  induction vals generalizing top with
  | nil => exact aligned
  | cons val vals ih => exact ih (Nat.dvd_mul_left _ _)

theorem layout_dvd {top : Nat} {vals : List (List UInt8)} : ∀ e ∈ layout top vals, 4 ∣ e.1 := by
  induction vals generalizing top with
  | nil =>
      intro e mem
      cases mem
  | cons val vals ih =>
      intro e mem
      rcases List.mem_cons.mp mem with rfl | mem
      · exact Nat.dvd_mul_left _ _
      · exact ih e mem

/-! ### One value -/

/-- The value stands at an address. -/
def Holds (g : Nat → UInt8) (e : Nat × List UInt8) : Prop :=
  ∀ i (h : i < e.2.length), g (e.1 + i) = e.2[i]

/-- A value that `push_val` takes as it is. -/
def Sized (val : List UInt8) : Prop := val ≠ [] ∧ val.length < userMemStart

/-- Every page is closed, or `map_and_clear` leaves it with a frame of its own and it may be
written. -/
def Bare (P : Nat → Prop) (plan : Plan) : Prop :=
  ∀ q, UserPage q → plan.sight q = .unmapped .unavailable ∨
    Ready (plan.sight q) ∧ ∀ w, pageOf w = q → w < virtualAddrEnd → P w

/-- What pushing has done from `top` down to `low`. -/
structure Grown (P : Nat → Prop) (top low : Nat) (laid : List (Nat × List UInt8))
    (plan plan' : Plan) : Prop where
  user : userMemStart ≤ low
  ready : ∀ q, InRange low top q → UserPage q ∧ Ready (plan.sight q)
  inside : ∀ q, InRange low top q → plan'.sight q = .otherFrame .readWrite
  outside : ∀ q, ¬ InRange low top q → plan'.sight q = plan.sight q
  below : ∀ w < low, plan'.byte w = plan.byte w
  above : ∀ w, top ≤ w → plan'.byte w = plan.byte w
  holds : ∀ e ∈ laid, Holds plan'.byte e
  gaps : ∀ w, low ≤ w → w < top → (∀ e ∈ laid, ¬ (e.1 ≤ w ∧ w < e.1 + e.2.length)) →
    plan'.byte w = plan.byte w ∨ plan'.byte w = 0

section
variable {d t : Nat} {z : Nat → UInt8} {P : Nat → Prop} {plan plan' plan'' : Plan}

theorem Bare.roomy (h : Bare P plan) : Roomy P plan := by
  intro w user avail
  rcases h _ user.page with closed | ⟨-, inside⟩
  · rw [closed] at avail
    cases avail
  · exact inside w rfl user.lt

theorem Grown.bare {top low : Nat} {laid : List (Nat × List UInt8)}
    (h : Grown P top low laid plan plan') (bare : Bare P plan) : Bare P plan' := by
  intro q user
  by_cases inside : InRange low top q
  · rcases bare q user with closed | ⟨-, writes⟩
    · have ready := (h.ready q inside).2
      rw [closed] at ready
      rcases ready with ready | ready <;> cases ready
    · exact .inr ⟨.inr (h.inside q inside), writes⟩
  · rw [h.outside q inside]
    exact bare q user

theorem Grown.nil {top : Nat} (user : userMemStart ≤ top) : Grown P top top [] plan plan := by
  have none : ∀ q, ¬ InRange top top q := by
    rintro q ⟨w, low, high, -⟩
    omega
  refine ⟨user, fun q h => absurd h (none q), fun q h => absurd h (none q), fun _ _ => rfl,
    fun _ _ => rfl, fun _ _ => rfl, fun e mem => ?_, fun w low high => ?_⟩
  · cases mem
  · omega

/-- Pushing further down. -/
theorem Grown.trans {top mid low : Nat} {laid laid' : List (Nat × List UInt8)}
    (first : Grown P top mid laid plan plan') (next : Grown P mid low laid' plan' plan'')
    (le : mid ≤ top) (le' : low ≤ mid) (above : ∀ e ∈ laid, mid ≤ e.1) :
    Grown P top low (laid ++ laid') plan plan'' := by
  have split : ∀ q, InRange low top q ↔ InRange low mid q ∨ InRange mid top q := by
    intro q
    constructor
    · rintro ⟨w, hlow, hhigh, page⟩
      rcases Nat.lt_or_ge w mid with h | h
      · exact .inl ⟨w, hlow, h, page⟩
      · exact .inr ⟨w, h, hhigh, page⟩
    · rintro (⟨w, hlow, hhigh, page⟩ | ⟨w, hlow, hhigh, page⟩)
      · exact ⟨w, hlow, by omega, page⟩
      · exact ⟨w, by omega, hhigh, page⟩
  refine ⟨next.user, fun q hq => ?_, fun q hq => ?_, fun q hq => ?_, fun w hw => ?_, fun w hw => ?_,
    fun e mem => ?_, fun w hlow hhigh none => ?_⟩
  · by_cases old : InRange mid top q
    · exact first.ready q old
    · obtain ⟨user, ready⟩ := next.ready q (((split q).mp hq).resolve_right old)
      exact ⟨user, by rwa [first.outside q old] at ready⟩
  · by_cases new : InRange low mid q
    · exact next.inside q new
    · rw [next.outside q new]
      exact first.inside q (((split q).mp hq).resolve_left new)
  · have hq := not_or.mp (mt (split q).mpr hq)
    rw [next.outside q hq.1, first.outside q hq.2]
  · rw [next.below w hw, first.below w (by omega)]
  · rw [next.above w (by omega), first.above w hw]
  · rcases List.mem_append.mp mem with mem | mem
    · intro i hi
      have high := above e mem
      rw [next.above _ (by omega)]
      exact first.holds e mem i hi
    · exact next.holds e mem
  · rcases Nat.lt_or_ge w mid with hmid | hmid
    · rw [← first.below w hmid]
      exact next.gaps w hlow hmid fun e mem => none e (List.mem_append_right _ mem)
    · rw [next.above w hmid]
      exact first.gaps w hmid hhigh fun e mem => none e (List.mem_append_left _ mem)

/-- The stack pointer and the sizes that `push_val` computes from a pointer to `top`. -/
theorem pushVal_esp {top n : Nat} (pos : 0 < n) (small : n < userMemStart)
    (high : userMemStart ≤ top) (fits : top ≤ virtualAddrEnd) :
    (top % virtualAddrEnd + virtualAddrEnd - n) % virtualAddrEnd / 4 * 4 = pushTo top n ∧
      (top % virtualAddrEnd + virtualAddrEnd - pushTo top n) % virtualAddrEnd = top - pushTo top n ∧
      pushTo top n + n + (top % virtualAddrEnd - (pushTo top n + n) % virtualAddrEnd) ≤ top := by
  simp only [pushTo, userMemStart, virtualAddrEnd] at *
  omega

theorem fills_pushVal {top : Nat} {val : List UInt8} (nonempty : val ≠ [])
    (small : val.length < userMemStart) (high : userMemStart ≤ top) (fits : top ≤ virtualAddrEnd)
    (bare : Bare P plan) :
    Fills d t z P plan (pushVal d (top % virtualAddrEnd) val) fun r plan' => ∀ esp placed,
      r = some (esp, placed) → esp = pushTo top val.length ∧
        Grown P top (pushTo top val.length) [(pushTo top val.length, val)] plan plan' := by
  have pos : 0 < val.length := List.length_pos_iff.mpr nonempty
  obtain ⟨newEsp, size, pad⟩ := pushVal_esp pos small high fits
  have le := pushTo_le top val.length
  have within : pushTo top val.length + (top - pushTo top val.length) ≤ virtualAddrEnd := by omega
  rw [pushVal, if_neg nonempty, newEsp]
  dsimp only
  rw [size]
  generalize low_eq : pushTo top val.length = low at *
  refine Fills.bind (fills_mapAndClear false fun _ => bare.roomy) fun ok plan₁ mapped => ?_
  cases ok with
  | false => exact .ret fun esp placed h => by cases h
  | true =>
  obtain ⟨visited, rfl⟩ := mapped rfl
  have visits : ∀ q, Visits (pagesOf low (top - low)) q ↔ InRange low top q := by
    intro q
    rw [visits_iff, Nat.add_sub_cancel' le]
    rfl
  have ready : ∀ q, InRange low top q → UserPage q ∧ Ready (plan.sight q) ∧
      ∀ w, pageOf w = q → w < virtualAddrEnd → P w := by
    intro q hq
    obtain ⟨user, rule⟩ := visited q ((visits q).mpr hq)
    rcases bare q user with closed | opened
    · rw [closed] at rule
      cases rule
    · exact ⟨user, opened⟩
  generalize padding : List.replicate _ (0 : UInt8) = zeros
  have length : low + (val ++ zeros).length ≤ top := by
    rw [List.length_append, ← padding, List.length_replicate]
    omega
  have room : low + (val ++ zeros).length ≤ virtualAddrEnd := by omega
  refine Fills.bind (fills_placeBytes _ _ fun i hi => ?_) ?_
  · have here : InRange low top (pageOf (low + i)) := ⟨low + i, by omega, by omega, rfl⟩
    obtain ⟨user, now, writes⟩ := ready _ here
    refine ⟨user, ⟨.readWrite, plan.walk_sight ((visits _).mpr here) (mapRule_ready now)⟩, ?_⟩
    exact writes _ (by simp [pageOf]) (Nat.mod_lt _ (by decide))
  rintro _ _ rfl
  refine .ret fun esp placed h => ?_
  cases h
  have user : UserPage (pageOf low) := (ready _ ⟨low, Nat.le_refl _, by omega, rfl⟩).1
  refine ⟨rfl, ?_, fun q hq => ⟨(ready q hq).1, (ready q hq).2.1⟩, fun q hq => ?_, fun q hq => ?_,
    fun w hw => ?_, fun w hw => ?_, fun e mem i hi => ?_, fun w hlow hhigh none => ?_⟩
  · have := user.1
    simp only [pageOf, kernelPageCount, userPageStart, userMemStart, pageSize, virtualAddrEnd] at *
    omega
  · exact plan.walk_sight ((visits q).mpr hq) (mapRule_ready (ready q hq).2.1)
  · exact plan.walk_sight_off _ (mt (visits q).mp hq)
  · exact placeOn_placedAt_below _ _ room hw
  · refine (placeOn_placedAt _ _ room (by omega)).trans ?_
    rw [List.getElem?_eq_none (by omega)]
    rfl
  · rw [List.mem_singleton] at mem
    subst mem
    refine (placeOn_placedAt _ _ room (by omega)).trans ?_
    rw [Nat.add_sub_cancel_left, List.getElem?_append_left hi, List.getElem?_eq_getElem hi]
    rfl
  · have past : val.length ≤ w - low := by
      have outside := none _ (List.mem_singleton_self _)
      dsimp only at outside
      omega
    refine (congrArg₂ Or (congrArg (· = _) (placeOn_placedAt _ _ room hlow))
      (congrArg (· = 0) (placeOn_placedAt _ _ room hlow))).mpr ?_
    rw [List.getElem?_append_right past, ← padding, List.getElem?_replicate]
    split
    · exact .inr rfl
    · exact .inl rfl

theorem fills_pushVals {top : Nat} {vals : List (List UInt8)}
    (sizes : ∀ val ∈ vals, Sized val) (high : userMemStart ≤ top)
    (fits : top ≤ virtualAddrEnd) (bare : Bare P plan) :
    Fills d t z P plan (pushVals d (top % virtualAddrEnd) vals) fun r plan' => ∀ esps placed,
      r = some (esps, placed) → esps = (layout top vals).map (·.1) ∧
        Grown P top (bottom top vals) (layout top vals) plan plan' := by
  induction vals generalizing top plan with
  | nil =>
      refine .ret fun esps placed h => ?_
      cases h
      exact ⟨rfl, .nil high⟩
  | cons val vals ih =>
      obtain ⟨nonempty, small⟩ := sizes val List.mem_cons_self
      refine Fills.bind (fills_pushVal nonempty small high fits bare) fun r plan₁ first => ?_
      rcases r with - | ⟨esp, placed⟩
      · exact .ret fun esps placed h => by cases h
      obtain ⟨rfl, grown⟩ := first esp placed rfl
      have le := pushTo_le top val.length
      have lt : pushTo top val.length < virtualAddrEnd := by
        have some : 0 < val.length := List.length_pos_iff.mpr nonempty
        have room := pushTo_add_le (Nat.lt_of_lt_of_le (by decide) grown.user)
        omega
      have rest := ih (fun v mem => sizes v (List.mem_cons_of_mem _ mem)) grown.user (Nat.le_of_lt lt)
        (grown.bare bare)
      rw [Nat.mod_eq_of_lt lt] at rest
      refine Fills.bind rest fun r plan₂ next => ?_
      rcases r with - | ⟨esps, placed'⟩
      · exact .ret fun esps placed h => by cases h
      obtain ⟨rfl, grown'⟩ := next esps placed' rfl
      refine .ret fun esps placed h => ?_
      cases h
      refine ⟨rfl, grown.trans grown' le (bottom_le (pushTo top val.length) vals) fun e mem => ?_⟩
      rw [List.mem_singleton] at mem
      subst mem
      exact Nat.le_refl _

/-! ### The arguments -/

/-- The strings of the arguments. -/
def strings (args : List (List UInt8)) : List (List UInt8) := args.map (· ++ [0])

/-- The array of pointers to the strings, if there are any. -/
def argArray (top : Nat) (args : List (List UInt8)) : List (List UInt8) :=
  if args = [] then [] else [((layout top (strings args)).map (·.1)).flatMap word]

/-- `argv`: the address of the array. -/
def argv (top : Nat) (args : List (List UInt8)) : Nat :=
  if args = [] then 0 else bottom top (strings args ++ argArray top args)

/-- The arguments and the return address of `_main`. -/
def argWords (stackLow top : Nat) (args : List (List UInt8)) : List (List UInt8) :=
  [word stackLow, word (top % virtualAddrEnd), word (argv top args), word args.length, word 0]

/-- All that is pushed. -/
def pushed (stackLow top : Nat) (args : List (List UInt8)) : List (List UInt8) :=
  strings args ++ argArray top args ++ argWords stackLow top args

/-- What the copies of the arguments on the kernel heap allow. -/
structure Short (args : List (List UInt8)) : Prop where
  count : args.length * 4 < userMemStart
  each : ∀ arg ∈ args, arg.length + 1 < userMemStart

theorem word_length (n : Nat) : (word n).length = 4 := rfl

theorem flatMap_word_length (ns : List Nat) : (ns.flatMap word).length = ns.length * 4 := by
  induction ns with
  | nil => rfl
  | cons n ns ih =>
      rw [List.flatMap_cons, List.length_append, ih, word_length, List.length_cons]
      omega

theorem layout_length (top : Nat) (vals : List (List UInt8)) :
    (layout top vals).length = vals.length := by
  rw [← List.length_map (·.2), layout_snd]

theorem layout_ne_nil {top : Nat} {vals : List (List UInt8)} (some : vals ≠ []) :
    (layout top vals).map (·.1) ≠ [] := by
  rw [Ne, List.map_eq_nil_iff, ← List.length_eq_zero_iff, layout_length, List.length_eq_zero_iff]
  exact some

/-- The address of the last value of several. -/
theorem getLast_layout {top : Nat} {vals : List (List UInt8)} (some : vals ≠ []) (n : Nat) :
    ((layout top vals).map (·.1)).getLast?.getD n = bottom top vals := by
  rw [bottom_eq, List.getLast?_eq_some_getLast (layout_ne_nil some)]
  rfl

theorem bottom_lt {top : Nat} {vals : List (List UInt8)} (some : vals ≠ [])
    (each : ∀ val ∈ vals, val ≠ []) (pos : 0 < bottom top vals) : bottom top vals < top := by
  obtain ⟨val, rest, rfl⟩ := List.exists_cons_of_ne_nil some
  have here := (layout_order pos).1 (pushTo top val.length, val) List.mem_cons_self
  have length : 0 < val.length := List.length_pos_iff.mpr (each val List.mem_cons_self)
  dsimp only at here
  omega

/-- The stack pointer after some values, as the code finds it. -/
theorem getLast_mod {top n : Nat} {vals : List (List UInt8)} (each : ∀ val ∈ vals, val ≠ [])
    (pos : 0 < bottom top vals) (fits : top ≤ virtualAddrEnd) (start : n = top % virtualAddrEnd) :
    ((layout top vals).map (·.1)).getLast?.getD n = bottom top vals % virtualAddrEnd := by
  by_cases none : vals = []
  · subst none
    exact start
  · have lt := bottom_lt none each pos
    rw [getLast_layout none, Nat.mod_eq_of_lt (by omega)]

theorem sized_strings {args : List (List UInt8)} (short : Short args) :
    ∀ val ∈ strings args, Sized val := by
  intro val mem
  obtain ⟨arg, isArg, rfl⟩ := List.mem_map.mp mem
  exact ⟨by simp, by simpa using short.each arg isArg⟩

theorem argArray_length {top : Nat} {args : List (List UInt8)} {val : List UInt8}
    (mem : val ∈ argArray top args) : 0 < args.length ∧ val.length = args.length * 4 := by
  rw [argArray] at mem
  split at mem
  · cases mem
  rename_i some
  rw [List.mem_singleton] at mem
  exact ⟨List.length_pos_iff.mpr some, by
    rw [mem, flatMap_word_length, List.length_map, layout_length, strings, List.length_map]⟩

theorem sized_argArray {top : Nat} {args : List (List UInt8)} (short : Short args) :
    ∀ val ∈ argArray top args, Sized val := by
  intro val mem
  obtain ⟨pos, length⟩ := argArray_length mem
  refine ⟨fun none => ?_, by rw [length]; exact short.count⟩
  rw [none, List.length_nil] at length
  omega

theorem argWords_length {stackLow top : Nat} {args : List (List UInt8)} :
    ∀ val ∈ argWords stackLow top args, val.length = 4 := by
  intro val mem
  simp only [argWords, List.mem_cons, List.not_mem_nil, or_false] at mem
  rcases mem with rfl | rfl | rfl | rfl | rfl <;> rfl

theorem sized_argWords {stackLow top : Nat} {args : List (List UInt8)} :
    ∀ val ∈ argWords stackLow top args, Sized val := by
  intro val mem
  have length := argWords_length val mem
  refine ⟨fun none => ?_, by rw [length]; decide⟩
  rw [none] at length
  cases length

theorem sized_pushed {stackLow top : Nat} {args : List (List UInt8)} (short : Short args) :
    ∀ val ∈ pushed stackLow top args, Sized val := by
  intro val mem
  rw [pushed, List.mem_append, List.mem_append] at mem
  rcases mem with (mem | mem) | mem
  · exact sized_strings short val mem
  · exact sized_argArray short val mem
  · exact sized_argWords val mem

theorem fills_pushArguments {stackLow top : Nat} {args : List (List UInt8)} (short : Short args)
    (high : userMemStart ≤ top) (fits : top ≤ virtualAddrEnd) (bare : Bare P plan) :
    Fills d t z P plan (pushArguments d stackLow (top % virtualAddrEnd) args) fun r plan' =>
      ∀ esp placed, r = some (esp, placed) → esp = bottom top (pushed stackLow top args) ∧
        Grown P top esp (layout top (pushed stackLow top args)) plan plan' := by
  have sizes := sized_strings short
  refine Fills.bind (fills_pushVals sizes high fits bare) fun r plan₁ first => ?_
  rcases r with - | ⟨esps, placed⟩
  · exact .ret fun esp placed h => by cases h
  obtain ⟨rfl, grown⟩ := first esps placed rfl
  have posOf : ∀ {low : Nat}, userMemStart ≤ low → 0 < low := fun h => Nat.lt_of_lt_of_le (by decide) h
  dsimp only
  rw [← strings, getLast_mod (fun val mem => (sizes val mem).1) (posOf grown.user) fits rfl, ← argArray]
  -- the array
  have arrays : ∀ val ∈ argArray top args, Sized val := sized_argArray short
  have le := bottom_le top (strings args)
  refine Fills.bind (fills_pushVals arrays grown.user (Nat.le_trans le fits) (grown.bare bare))
    fun r plan₂ second => ?_
  rcases r with - | ⟨esps, placed'⟩
  · exact .ret fun esp placed h => by cases h
  obtain ⟨rfl, grown'⟩ := second esps placed' rfl
  have start : ((layout (bottom top (strings args)) (argArray top args)).map (·.1)).getLast?.getD
      (top % virtualAddrEnd) =
        bottom (bottom top (strings args)) (argArray top args) % virtualAddrEnd := by
    by_cases none : args = []
    · subst none
      rfl
    · have some : argArray top args ≠ [] := by
        rw [argArray, if_neg none]
        exact List.cons_ne_nil _ _
      have lt := bottom_lt some (fun val mem => (arrays val mem).1) (posOf grown'.user)
      rw [getLast_layout some, Nat.mod_eq_of_lt (by omega)]
  have array : ((layout (bottom top (strings args)) (argArray top args)).map (·.1)).getLast?.getD 0 =
      argv top args := by
    by_cases none : args = []
    · subst none
      rfl
    · have some : argArray top args ≠ [] := by
        rw [argArray, if_neg none]
        exact List.cons_ne_nil _ _
      rw [getLast_layout some, argv, if_neg none, bottom_append]
  dsimp only
  rw [start, array]
  -- the words
  have le' := bottom_le (bottom top (strings args)) (argArray top args)
  refine Fills.bind (fills_pushVals sized_argWords grown'.user (by omega) (grown'.bare (grown.bare bare)))
    fun r plan₃ third => ?_
  rcases r with - | ⟨esps, placed''⟩
  · exact .ret fun esp placed h => by cases h
  obtain ⟨rfl, grown''⟩ := third esps placed'' rfl
  refine .ret fun esp placed h => ?_
  cases h
  rw [getLast_layout (List.cons_ne_nil _ _), pushed, bottom_append, bottom_append, layout_append,
    layout_append, bottom_append]
  refine ⟨rfl, (grown.trans grown' le le' fun e mem => ?_).trans grown'' (Nat.le_trans le' le)
    (bottom_le _ _) fun e mem => ?_⟩
  · exact ((layout_order (posOf grown.user)).1 e mem).1
  · rcases List.mem_append.mp mem with mem | mem
    · exact Nat.le_trans le' ((layout_order (posOf grown.user)).1 e mem).1
    · exact ((layout_order (posOf grown'.user)).1 e mem).1

/-! ### The whole stack -/

/-- No page of the directory may be mapped yet. -/
def Closed (plan : Plan) : Prop := ∀ q, UserPage q → plan.sight q = .unmapped .unavailable

/-- A page of a range that starts and ends with a page lies in it as a whole. -/
theorem InRange.all {low top q w : Nat} (first : pageSize ∣ low) (last : pageSize ∣ top)
    (fits : top ≤ virtualAddrEnd) (h : InRange low top q) (page : pageOf w = q)
    (lt : w < virtualAddrEnd) : low ≤ w ∧ w < top := by
  obtain ⟨v, hlow, htop, rfl⟩ := h
  obtain ⟨a, rfl⟩ := first
  obtain ⟨b, rfl⟩ := last
  simp only [pageOf, pageSize, virtualAddrEnd] at *
  omega

theorem bare_opened {low top : Nat} (first : pageSize ∣ low) (last : pageSize ∣ top)
    (fits : top ≤ virtualAddrEnd) (closed : Closed plan) :
    Bare (fun w => low ≤ w ∧ w < top) (plan.walk openRule (InRange low top)) := by
  intro q user
  by_cases inside : InRange low top q
  · have look := plan.walk_sight (f := openRule) (s := .unmapped .available) inside
      (by rw [closed q user]; rfl)
    exact .inr ⟨.inl look, fun w page lt => inside.all first last fits page lt⟩
  · exact .inl ((plan.walk_sight_off _ inside).trans (closed q user))

theorem visits_inRange {low top : Nat} (le : low ≤ top) :
    Visits (pagesOf low (top - low)) = InRange low top := by
  funext q
  rw [visits_iff, Nat.add_sub_cancel' le]
  rfl

/-- `change_availability` of a range in a directory that is closed. -/
theorem fills_changeAvailability {low top : Nat} (le : low ≤ top) :
    Fills d t z P plan (changeAvailability d low (top - low) 1) fun ok plan' => ok = true →
      plan' = plan.walk openRule (InRange low top) := by
  rw [← visits_inRange le]
  exact Fills.conseq (fills_opened _) fun _ _ h go => (h go).2

/-- The user stack of a new program, with what was pushed from its top. -/
structure Stacked (low top : Nat) (vals : List (List UInt8)) (plan plan' : Plan) : Prop where
  room : low ≤ bottom top vals
  pushed : ∀ q, InRange (bottom top vals) top q → plan'.sight q = .otherFrame .readWrite
  zero : ∀ q, InRange low top q → ¬ InRange (bottom top vals) top q →
    plan'.sight q = .zeroFrame .readOnly
  rest : ∀ q, ¬ InRange low top q → plan'.sight q = plan.sight q
  below : ∀ w < bottom top vals, plan'.byte w = plan.byte w
  holds : ∀ e ∈ layout top vals, Holds plan'.byte e
  gaps : ∀ w, bottom top vals ≤ w → w < top →
    (∀ e ∈ layout top vals, ¬ (e.1 ≤ w ∧ w < e.1 + e.2.length)) →
      plan'.byte w = plan.byte w ∨ plan'.byte w = 0

theorem stacked_of_grown {low top : Nat} {vals : List (List UInt8)} (first : pageSize ∣ low)
    (last : pageSize ∣ top) (high : userMemStart ≤ low) (fits : top ≤ virtualAddrEnd)
    (closed : Closed plan) (lt : bottom top vals < top)
    (grown : Grown P top (bottom top vals) (layout top vals)
      (plan.walk openRule (InRange low top)) plan') :
    Stacked low top vals plan (plan'.walk (mapRule true) (InRange low (bottom top vals))) := by
  have lowest : InRange (bottom top vals) top (pageOf (bottom top vals)) :=
    ⟨_, Nat.le_refl _, lt, rfl⟩
  have room : low ≤ bottom top vals := by
    obtain ⟨user, ready⟩ := grown.ready _ lowest
    by_cases inside : InRange low top (pageOf (bottom top vals))
    · exact (inside.all first last fits rfl (by omega)).1
    · rw [plan.walk_sight_off _ inside, closed _ user] at ready
      rcases ready with ready | ready <;> cases ready
  refine ⟨room, fun q hq => ?_, fun q hq off => ?_, fun q hq => ?_, grown.below, grown.holds,
    grown.gaps⟩
  · have look := grown.inside q hq
    by_cases more : InRange low (bottom top vals) q
    · exact plan'.walk_sight more (by rw [look]; rfl)
    · exact (plan'.walk_sight_off _ more).trans look
  · obtain ⟨w, hlow, htop, page⟩ := hq
    have more : InRange low (bottom top vals) q :=
      ⟨w, hlow, Nat.lt_of_not_le fun h => off ⟨w, h, htop, page⟩, page⟩
    refine plan'.walk_sight more ?_
    have user : UserPage q := page ▸ userPage_of_high (by omega) (by omega)
    rw [grown.outside q off, plan.walk_sight (f := openRule) (s := .unmapped .available)
      ⟨w, hlow, htop, page⟩ (by rw [closed q user]; rfl)]
    rfl
  · have up : ¬ InRange (bottom top vals) top q := by
      rintro ⟨w, hlow, htop, page⟩
      exact hq ⟨w, by omega, htop, page⟩
    have down : ¬ InRange low (bottom top vals) q := by
      rintro ⟨w, hlow, htop, page⟩
      exact hq ⟨w, hlow, by omega, page⟩
    rw [plan'.walk_sight_off _ down, grown.outside q up, plan.walk_sight_off _ hq]

theorem bottom_pushed_lt {stackLow top : Nat} {args : List (List UInt8)}
    (pos : 0 < bottom top (pushed stackLow top args)) :
    bottom top (pushed stackLow top args) < top := by
  rw [pushed, bottom_append] at pos ⊢
  exact Nat.lt_of_lt_of_le (bottom_lt (List.cons_ne_nil _ _)
    (fun val mem => (sized_argWords val mem).1) pos) (bottom_le _ _)

/-- A stack whose pages are made available when they are needed. -/
theorem fills_stack {low top size high : Nat} {args : List (List UInt8)} (short : Short args)
    (first : pageSize ∣ low) (last : pageSize ∣ top) (user : userMemStart ≤ low) (le : low ≤ top)
    (fits : top ≤ virtualAddrEnd) (hsize : size = top - low) (hhigh : high = top % virtualAddrEnd)
    (closed : Closed plan) (inside : ∀ w, low ≤ w → w < top → P w) :
    Fills d t z P plan (do
      if ← changeAvailability d low size 1 then
        match ← pushArguments d low high args with
        | none => pure none
        | some (esp, placed) =>
            if ← mapAndClear d low ((esp + virtualAddrEnd - low) % virtualAddrEnd) true then
              pure (some placed)
            else pure none
      else pure none) fun r plan' => ∀ placed, r = some placed →
        Stacked low top (pushed low top args) plan plan' := by
  subst hsize hhigh
  refine Fills.bind (fills_changeAvailability le) fun ok plan₁ opened => ?_
  cases ok with
  | false => exact .ret fun placed h => by cases h
  | true =>
  obtain rfl := opened rfl
  have bare : Bare P (plan.walk openRule (InRange low top)) := by
    intro q userq
    rcases bare_opened first last fits closed q userq with closed | ⟨ready, range⟩
    · exact .inl closed
    · exact .inr ⟨ready, fun w page lt => inside w (range w page lt).1 (range w page lt).2⟩
  refine Fills.bind (fills_pushArguments short (Nat.le_trans user le) fits bare) fun r plan₂ h => ?_
  rcases r with - | ⟨esp, placed⟩
  · exact .ret fun placed h => by cases h
  obtain ⟨rfl, grown⟩ := h esp placed rfl
  have lt := bottom_pushed_lt (Nat.lt_of_lt_of_le (by decide) grown.user)
  have stacked := stacked_of_grown first last user fits closed lt grown
  have size : (bottom top (pushed low top args) + virtualAddrEnd - low) % virtualAddrEnd =
      bottom top (pushed low top args) - low := by
    have room := stacked.room
    generalize bottom top (pushed low top args) = esp at room lt ⊢
    simp only [virtualAddrEnd] at *
    omega
  dsimp only
  rw [size]
  refine Fills.bind (fills_mapAndClear true fun h => by cases h) fun ok plan₃ h => ?_
  cases ok with
  | false => exact .ret fun placed h => by cases h
  | true =>
  obtain ⟨-, rfl⟩ := h rfl
  refine .ret fun _ _ => ?_
  rw [visits_inRange stacked.room]
  exact stacked

/-- `USER_STACK_LEN` words below the end of the address space. -/
def stackLow : Nat := virtualAddrEnd - userStackLen * 4

theorem fills_loadStack {args : List (List UInt8)} (short : Short args) (closed : Closed plan)
    (inside : ∀ w, stackLow ≤ w → w < virtualAddrEnd → P w) :
    Fills d t z P plan (loadStack d false args) fun r plan' => ∀ placed, r = some placed →
      Stacked stackLow virtualAddrEnd (pushed stackLow virtualAddrEnd args) plan plan' := by
  have low : (0 + virtualAddrEnd - userStackLen * 4) % virtualAddrEnd = stackLow := by decide
  unfold loadStack prepareStack
  dsimp only
  simp only [Bool.false_eq_true, if_false]
  rw [low]
  exact fills_stack short (by decide) (by decide) (by decide) (by decide) (Nat.le_refl _)
    (by decide) (by decide) closed inside

/-! ### The memory of a guest -/

/-- All of a range has frames of its own, and the rest of the directory is closed. -/
structure Whole (low top : Nat) (plan : Plan) : Prop where
  inside : ∀ q, InRange low top q → plan.sight q = .otherFrame .readWrite
  outside : ∀ q, UserPage q → ¬ InRange low top q → plan.sight q = .unmapped .unavailable

theorem Whole.bare {low top : Nat} (first : pageSize ∣ low) (last : pageSize ∣ top)
    (fits : top ≤ virtualAddrEnd) (h : Whole low top plan)
    (inside : ∀ w, low ≤ w → w < top → P w) : Bare P plan := by
  intro q user
  by_cases here : InRange low top q
  · refine .inr ⟨.inr (h.inside q here), fun w page lt => ?_⟩
    have range := here.all first last fits page lt
    exact inside w range.1 range.2
  · exact .inl (h.outside q user here)

/-- A range that is made available and mapped at once. -/
theorem fills_mapRange {low top : Nat} (first : pageSize ∣ low) (last : pageSize ∣ top)
    (le : low ≤ top) (fits : top ≤ virtualAddrEnd) (closed : Closed plan)
    (inside : ∀ w, low ≤ w → w < top → P w) :
    Fills d t z P plan (mapRange d low (top - low)) fun ok plan' => ok = true → Whole low top plan' := by
  refine Fills.bind (fills_changeAvailability le) fun ok plan₁ opened => ?_
  cases ok with
  | false => exact .ret fun h => by cases h
  | true =>
  obtain rfl := opened rfl
  have bare := bare_opened first last fits closed
  have roomy : Roomy P (plan.walk openRule (InRange low top)) := fun w user avail =>
    inside w (bare.roomy w user avail).1 (bare.roomy w user avail).2
  refine Fills.conseq (fills_mapAndClear false fun _ => roomy) fun ok plan₂ h go => ?_
  obtain ⟨visited, rfl⟩ := h go
  rw [visits_inRange le] at visited ⊢
  refine ⟨fun q hq => ?_, fun q user hq => ?_⟩
  · refine Plan.walk_sight _ hq ?_
    rw [plan.walk_sight (f := openRule) (s := .unmapped .available) hq
      (by rw [closed q (visited q hq).1]; rfl)]
    rfl
  · rw [Plan.walk_sight_off _ _ hq, Plan.walk_sight_off _ _ hq, closed q user]

/-- Nothing more is mapped in a directory whose rest is closed. -/
theorem Whole.grown {low top high bot : Nat} {laid : List (Nat × List UInt8)}
    (h : Whole low top plan) (grown : Grown P high bot laid plan plan') : Whole low top plan' := by
  refine ⟨fun q hq => ?_, fun q user hq => ?_⟩
  · by_cases more : InRange bot high q
    · exact grown.inside q more
    · exact (grown.outside q more).trans (h.inside q hq)
  · have none : ¬ InRange bot high q := by
      intro more
      have ready := (grown.ready q more).2
      rw [h.outside q user hq] at ready
      rcases ready with ready | ready <;> cases ready
    exact (grown.outside q none).trans (h.outside q user hq)

theorem Whole.walk {low top : Nat} {T : Nat → Prop} (h : Whole low top plan)
    (visited : ∀ q, T q → UserPage q ∧ (mapRule true (plan.sight q)).isSome = true) :
    Whole low top (plan.walk (mapRule true) T) := by
  refine ⟨fun q hq => ?_, fun q user hq => ?_⟩
  · have look := h.inside q hq
    by_cases more : T q
    · exact plan.walk_sight more (by rw [look]; rfl)
    · exact (plan.walk_sight_off _ more).trans look
  · have none : ¬ T q := by
      intro more
      have rule := (visited q more).2
      rw [h.outside q user hq] at rule
      cases rule
    exact (plan.walk_sight_off _ none).trans (h.outside q user hq)

/-- The stack of a guest, in its memory. -/
theorem fills_wholeStack {low top size stackLow : Nat} {args : List (List UInt8)}
    (short : Short args) (first : pageSize ∣ low) (last : pageSize ∣ top)
    (user : userMemStart ≤ top) (le : low ≤ top) (lt : top < virtualAddrEnd)
    (hsize : size = top - low) (closed : Closed plan) (inside : ∀ w, low ≤ w → w < top → P w) :
    Fills d t z P plan (do
      if ← mapRange d low size then
        match ← pushArguments d stackLow top args with
        | none => pure none
        | some (esp, placed) =>
            if ← mapAndClear d stackLow ((esp + virtualAddrEnd - stackLow) % virtualAddrEnd) true then
              pure (some placed)
            else pure none
      else pure none) fun r plan' => ∀ placed, r = some placed → Whole low top plan' := by
  subst hsize
  refine Fills.bind (fills_mapRange first last le (Nat.le_of_lt lt) closed inside)
    fun ok plan₁ mapped => ?_
  cases ok with
  | false => exact .ret fun placed h => by cases h
  | true =>
  have whole := mapped rfl
  have high : top % virtualAddrEnd = top := Nat.mod_eq_of_lt lt
  have push : Fills d t z P plan₁ (pushArguments d stackLow (top % virtualAddrEnd) args) _ :=
    fills_pushArguments short user (Nat.le_of_lt lt)
      (whole.bare first last (Nat.le_of_lt lt) inside)
  rw [high] at push
  refine Fills.bind push fun r plan₂ h => ?_
  rcases r with - | ⟨esp, placed⟩
  · exact .ret fun placed h => by cases h
  obtain ⟨-, grown⟩ := h esp placed rfl
  refine Fills.bind (fills_mapAndClear true fun h => by cases h) fun ok plan₃ h => ?_
  cases ok with
  | false => exact .ret fun placed h => by cases h
  | true =>
  obtain ⟨visited, rfl⟩ := h rfl
  exact .ret fun _ _ => (whole.grown grown).walk visited

/-- The end of the memory of a guest. -/
def guestMemEnd : Nat := userMemStart + guestMemSize

theorem fills_loadStack_guest {args : List (List UInt8)} (short : Short args) (closed : Closed plan)
    (inside : ∀ w, userMemStart ≤ w → w < guestMemEnd → P w) :
    Fills d t z P plan (loadStack d true args) fun r plan' => ∀ placed, r = some placed →
      Whole userMemStart guestMemEnd plan' := by
  unfold loadStack prepareStack
  dsimp only
  simp only [if_true]
  exact fills_wholeStack short (by decide) (by decide) (by decide) (by decide) (by decide)
    (by decide) closed inside

end

end OsKernel.Loader
