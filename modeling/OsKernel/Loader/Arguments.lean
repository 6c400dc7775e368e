/-
What a program finds on its stack: the words for `_main`, `argv` and the strings.

They lie where `layout` says, so that their ranges are disjoint and inside the stack, and
nothing that is loaded after them touches them. What lies below the stack pointer is zero
in its own page, which was cleared, and elsewhere it is what the zero frame holds. When the
arguments do not fit, `push_val` comes to a page below the stack, which is not available:
the call fails before it stores anything there.
-/

import OsKernel.Loader.Image

namespace OsKernel.Loader

open OsKernel.Vm OsKernel.Memory OsKernel.Syscall Prog

/-! ### Double words -/

/-- The double word at an address. -/
def wordAt (g : Nat → UInt8) (a : Nat) : Nat :=
  (g a).toNat + (g (a + 1)).toNat * 2 ^ 8 + (g (a + 2)).toNat * 2 ^ 16 + (g (a + 3)).toNat * 2 ^ 24

theorem wordAt_word {g : Nat → UInt8} {a n : Nat} (h : Holds g (a, word n)) (lt : n < 2 ^ 32) :
    wordAt g a = n := by
  have here : ∀ i < 4, i < (word n).length := fun _ lt => lt
  have b₀ := h 0 (here 0 (by decide))
  have b₁ := h 1 (here 1 (by decide))
  have b₂ := h 2 (here 2 (by decide))
  have b₃ := h 3 (here 3 (by decide))
  simp only [word, Nat.add_zero, List.getElem_cons_zero, List.getElem_cons_succ] at b₀ b₁ b₂ b₃
  rw [wordAt, b₀, b₁, b₂, b₃]
  simp only [UInt8.toNat_ofNat']
  omega

/-- The double words of an array. -/
theorem Holds.word {g : Nat → UInt8} {a : Nat} {ns : List Nat} (h : Holds g (a, ns.flatMap word))
    {i : Nat} (hi : i < ns.length) : Holds g (a + 4 * i, Memory.word ns[i]) := by
  induction ns generalizing a i with
  | nil => cases hi
  | cons n ns ih =>
      have rest : Holds g (a + 4, ns.flatMap Memory.word) := by
        intro j hj
        have inside : j < (ns.flatMap Memory.word).length := hj
        have here := h (4 + j) (by
          rw [List.flatMap_cons, List.length_append, word_length]
          omega)
        rw [← Nat.add_assoc] at here
        rw [here]
        simp only [List.flatMap_cons]
        exact (List.getElem_append_right (by rw [word_length]; omega)).trans (by simp [word_length])
      cases i with
      | zero =>
          intro j hj
          have four : j < 4 := hj
          have here := h j (by
            rw [List.flatMap_cons, List.length_append, word_length]
            omega)
          rw [Nat.mul_zero, Nat.add_zero, here]
          simp only [List.flatMap_cons, List.getElem_cons_zero]
          exact List.getElem_append_left four
      | succ i =>
          have next := ih rest (Nat.lt_of_succ_lt_succ hi)
          rw [show a + 4 * (i + 1) = a + 4 + 4 * i by omega]
          exact next

/-! ### Where the parts lie -/

/-- The end of the array: below it lie the words, above it the strings. -/
def arrayTop (args : List (List UInt8)) : Nat := bottom virtualAddrEnd (strings args)

/-- The end of the words for `_main`, which is the start of the array. -/
def wordsTop (args : List (List UInt8)) : Nat := bottom (arrayTop args) (argArray virtualAddrEnd args)

/-- The addresses of the strings. -/
def addresses (args : List (List UInt8)) : List Nat :=
  (layout virtualAddrEnd (strings args)).map (·.1)

/-- The stack pointer of a new program. -/
def lowest (args : List (List UInt8)) : Nat :=
  bottom virtualAddrEnd (pushed stackLow virtualAddrEnd args)

section
variable {args : List (List UInt8)}

theorem addresses_length (args : List (List UInt8)) : (addresses args).length = args.length := by
  rw [addresses, List.length_map, layout_length, strings, List.length_map]

theorem arrayTop_dvd (args : List (List UInt8)) : 4 ∣ arrayTop args := bottom_dvd (by decide) _

theorem wordsTop_dvd (args : List (List UInt8)) : 4 ∣ wordsTop args :=
  bottom_dvd (arrayTop_dvd args) _

theorem lowest_dvd (args : List (List UInt8)) : 4 ∣ lowest args := bottom_dvd (by decide) _

theorem pushTo_words {top : Nat} (aligned : 4 ∣ top) {n : Nat} (pos : 0 < pushTo top (4 * n)) :
    pushTo top (4 * n) + 4 * n = top := by
  unfold pushTo at *
  omega

/-- The array is full of words, so that no gap is left above it. -/
theorem wordsTop_add (pos : 0 < wordsTop args) : wordsTop args + 4 * args.length = arrayTop args := by
  by_cases none : args = []
  · subst none
    rfl
  have array : wordsTop args = pushTo (arrayTop args) (4 * args.length) := by
    rw [wordsTop, argArray, if_neg none, bottom, List.foldl_cons, List.foldl_nil,
      flatMap_word_length, List.length_map, layout_length, strings, List.length_map, Nat.mul_comm]
  rw [array] at pos ⊢
  exact pushTo_words (arrayTop_dvd args) pos

theorem layout_words {top : Nat} (aligned : 4 ∣ top) (room : 20 < top) (a b c d e : Nat) :
    layout top [word a, word b, word c, word d, word e] = [(top - 4, word a), (top - 8, word b),
      (top - 12, word c), (top - 16, word d), (top - 20, word e)] := by
  obtain ⟨n, rfl⟩ := aligned
  have step : ∀ k, pushTo (4 * n - k * 4) 4 = 4 * n - (k + 1) * 4 := by
    intro k
    unfold pushTo
    omega
  have first := step 0
  have second := step 1
  have third := step 2
  have fourth := step 3
  have fifth := step 4
  simp only [Nat.zero_mul, Nat.sub_zero] at first
  simp only [layout, word_length, first, second, third, fourth, fifth, Nat.reduceMul, Nat.reduceAdd]

theorem lowest_eq (args : List (List UInt8)) :
    lowest args = bottom (wordsTop args) (argWords stackLow virtualAddrEnd args) := by
  rw [lowest, pushed, bottom_append, bottom_append]
  rfl

theorem wordsTop_pos (pos : 0 < lowest args) : 20 < wordsTop args := by
  have aligned := wordsTop_dvd args
  rw [lowest_eq, argWords, bottom] at pos
  simp only [List.foldl_cons, List.foldl_nil, word_length, pushTo] at pos
  omega

theorem layout_argWords (pos : 0 < lowest args) :
    layout (wordsTop args) (argWords stackLow virtualAddrEnd args) =
      [(wordsTop args - 4, word stackLow), (wordsTop args - 8, word 0),
        (wordsTop args - 12, word (argv virtualAddrEnd args)),
        (wordsTop args - 16, word args.length), (wordsTop args - 20, word 0)] := by
  rw [argWords, Nat.mod_self]
  exact layout_words (wordsTop_dvd args) (wordsTop_pos pos) _ _ _ _ _

theorem lowest_add (pos : 0 < lowest args) : lowest args + 20 = wordsTop args := by
  have room := wordsTop_pos pos
  have last : lowest args = wordsTop args - 20 := by
    rw [lowest_eq, bottom_eq, layout_argWords pos]
    rfl
  omega

theorem argv_eq (some : args ≠ []) : argv virtualAddrEnd args = wordsTop args := by
  rw [argv, if_neg some, bottom_append]
  rfl

/-- All that lies on the stack. -/
theorem layout_pushed (pos : 0 < lowest args) :
    layout virtualAddrEnd (pushed stackLow virtualAddrEnd args) =
      layout virtualAddrEnd (strings args) ++
        layout (arrayTop args) (argArray virtualAddrEnd args) ++
        [(lowest args + 16, word stackLow), (lowest args + 12, word 0),
          (lowest args + 8, word (argv virtualAddrEnd args)),
          (lowest args + 4, word args.length), (lowest args, word 0)] := by
  have top := lowest_add pos
  rw [pushed, layout_append, layout_append, bottom_append]
  change _ ++ _ ++ layout (wordsTop args) _ = _
  rw [layout_argWords pos, show wordsTop args - 4 = lowest args + 16 by omega,
    show wordsTop args - 8 = lowest args + 12 by omega,
    show wordsTop args - 12 = lowest args + 8 by omega,
    show wordsTop args - 16 = lowest args + 4 by omega,
    show wordsTop args - 20 = lowest args by omega]
  rfl

theorem mem_strings {i : Nat} (h : i < args.length) : ∃ a, (addresses args)[i]? = some a ∧
    (a, args[i] ++ [0]) ∈ layout virtualAddrEnd (strings args) := by
  have bound : i < (layout virtualAddrEnd (strings args)).length := by
    rw [layout_length, strings, List.length_map]
    exact h
  have val : (layout virtualAddrEnd (strings args))[i].2 = args[i] ++ [0] := by
    have all := layout_snd virtualAddrEnd (strings args)
    have here : ((layout virtualAddrEnd (strings args)).map (·.2))[i]? =
        (args.map (· ++ [0]))[i]? := by
      rw [all]
      rfl
    rw [List.getElem?_map, List.getElem?_eq_getElem bound, List.getElem?_map,
      List.getElem?_eq_getElem h] at here
    exact Option.some.inj here
  refine ⟨(layout virtualAddrEnd (strings args))[i].1, ?_, ?_⟩
  · rw [addresses, List.getElem?_map, List.getElem?_eq_getElem bound]
    rfl
  · rw [← val]
    exact List.getElem_mem bound

/-! ### What the program finds -/

/-- The ranges of the words, of the array and of the strings. -/
def argRanges (args : List (List UInt8)) (esp : Nat) (g : Nat → UInt8) : List (Nat × Nat) :=
  (esp, 20) :: (wordAt g (esp + 8), 4 * args.length) ::
    args.mapIdx fun i arg => (wordAt g (wordAt g (esp + 8) + 4 * i), arg.length + 1)

/-- The arguments, as a program finds them at its stack pointer. `stack_high` is the end of
the address space, which as a double word is 0. -/
structure Marshalled (args : List (List UInt8)) (esp : Nat) (g : Nat → UInt8) : Prop where
  aligned : 4 ∣ esp
  ret : wordAt g esp = 0
  argc : wordAt g (esp + 4) = args.length
  stackHigh : wordAt g (esp + 12) = 0
  stackLow : wordAt g (esp + 16) = stackLow
  strings : ∀ i (h : i < args.length),
    Holds g (wordAt g (wordAt g (esp + 8) + 4 * i), args[i] ++ [0])
  inside : ∀ range ∈ argRanges args esp g, ∀ w, InSpan range w →
    Loader.stackLow ≤ w ∧ w < virtualAddrEnd
  apart : (argRanges args esp g).Pairwise fun r r' => ∀ w, ¬ (InSpan r w ∧ InSpan r' w)
  rest : ∀ w, Loader.stackLow ≤ w → w < esp → g w = 0

/-- Every value that was pushed is where it was put. -/
structure Laid (args : List (List UInt8)) (g : Nat → UInt8) : Prop where
  room : stackLow ≤ lowest args
  count : args.length < 2 ^ 32
  holds : ∀ e ∈ layout virtualAddrEnd (pushed stackLow virtualAddrEnd args), Holds g e

section
variable {g : Nat → UInt8}

theorem Laid.pos (h : Laid args g) : 0 < lowest args := Nat.lt_of_lt_of_le (by decide) h.room

theorem Laid.word (h : Laid args g) {a n : Nat} (lt : n < 2 ^ 32)
    (mem : (a, Memory.word n) ∈ [(lowest args + 16, Memory.word stackLow),
      (lowest args + 12, Memory.word 0), (lowest args + 8, Memory.word (argv virtualAddrEnd args)),
      (lowest args + 4, Memory.word args.length), (lowest args, Memory.word 0)]) :
    wordAt g a = n := by
  refine wordAt_word (h.holds _ ?_) lt
  rw [layout_pushed h.pos]
  exact List.mem_append_right _ mem

theorem Laid.string (h : Laid args g) {e : Nat × List UInt8}
    (mem : e ∈ layout virtualAddrEnd (Loader.strings args)) : Holds g e := by
  refine h.holds e ?_
  rw [layout_pushed h.pos, List.append_assoc]
  exact List.mem_append_left _ mem

theorem arrayTop_pos (pos : 0 < lowest args) : 0 < arrayTop args := by
  have room := wordsTop_pos pos
  have top := wordsTop_add (Nat.lt_trans (by decide) room)
  omega

/-- The strings lie between the array and the end of the address space, in the order in
which they were pushed. -/
theorem strings_order (pos : 0 < lowest args) :
    (∀ e ∈ layout virtualAddrEnd (strings args),
      arrayTop args ≤ e.1 ∧ e.1 + e.2.length ≤ virtualAddrEnd) ∧
      (layout virtualAddrEnd (strings args)).Pairwise fun e e' => e'.1 + e'.2.length ≤ e.1 :=
  layout_order (arrayTop_pos pos)

theorem argv_lt (pos : 0 < lowest args) : argv virtualAddrEnd args < 2 ^ 32 := by
  by_cases none : args = []
  · subst none
    decide
  · have top := wordsTop_add (Nat.lt_trans (by decide) (wordsTop_pos pos))
    have some : 0 < args.length := List.length_pos_iff.mpr none
    have le := bottom_le virtualAddrEnd (strings args)
    rw [argv_eq none]
    simp only [arrayTop, virtualAddrEnd] at *
    omega

theorem Laid.array (h : Laid args g) : wordAt g (lowest args + 8) = argv virtualAddrEnd args :=
  h.word (argv_lt h.pos) (by simp)

/-- A slot of the array names the string. -/
theorem Laid.slot (h : Laid args g) {i : Nat} (hi : i < args.length) :
    (addresses args)[i]? = some (wordAt g (wordsTop args + 4 * i)) := by
  have some : args ≠ [] := List.ne_nil_of_length_pos (by omega)
  have length := addresses_length args
  have hi' : i < (addresses args).length := by omega
  have mem : (wordsTop args, (addresses args).flatMap Memory.word) ∈
      layout virtualAddrEnd (pushed stackLow virtualAddrEnd args) := by
    rw [layout_pushed h.pos]
    refine List.mem_append_left _ (List.mem_append_right _ ?_)
    rw [argArray, if_neg some, layout, ← addresses]
    refine List.mem_cons.mpr (.inl (Prod.ext ?_ rfl))
    rw [wordsTop, argArray, if_neg some]
    rfl
  have lt : (addresses args)[i] < 2 ^ 32 := by
    obtain ⟨a, here, mem⟩ := mem_strings hi
    rw [List.getElem?_eq_getElem hi', Option.some.injEq] at here
    have order := (strings_order h.pos).1 _ mem
    simp only [List.length_append, List.length_singleton, virtualAddrEnd] at order
    omega
  rw [List.getElem?_eq_getElem hi', wordAt_word ((h.holds _ mem).word hi') lt]

theorem Laid.strings (h : Laid args g) {i : Nat} (hi : i < args.length) :
    Holds g (wordAt g (wordsTop args + 4 * i), args[i] ++ [0]) := by
  obtain ⟨a, here, mem⟩ := mem_strings hi
  rw [h.slot hi, Option.some.injEq] at here
  rw [here]
  exact h.string mem

/-- The ranges of the strings are those of the layout. -/
theorem Laid.ranges (h : Laid args g) : argRanges args (lowest args) g =
    (lowest args, 20) :: (argv virtualAddrEnd args, 4 * args.length) ::
      (layout virtualAddrEnd (Loader.strings args)).map fun e => (e.1, e.2.length) := by
  rw [argRanges, h.array]
  refine congrArg _ (congrArg _ (List.ext_getElem? fun i => ?_))
  rw [List.getElem?_mapIdx, List.getElem?_map]
  by_cases hi : i < args.length
  · rw [argv_eq (List.ne_nil_of_length_pos (by omega))]
    have slot := h.slot hi
    have val : ((layout virtualAddrEnd (Loader.strings args)).map (·.2))[i]? = some (args[i] ++ [0]) := by
      rw [layout_snd, Loader.strings, List.getElem?_map, List.getElem?_eq_getElem hi]
      rfl
    rw [addresses, List.getElem?_map] at slot
    rw [List.getElem?_map] at val
    obtain ⟨e, here, addr⟩ := Option.map_eq_some_iff.mp slot
    rw [here, Option.map_some, Option.some.injEq] at val
    rw [List.getElem?_eq_getElem hi, here, Option.map_some, Option.map_some, ← addr, val,
      List.length_append, List.length_singleton]
  · have none : (layout virtualAddrEnd (Loader.strings args))[i]? = none := by
      rw [List.getElem?_eq_none_iff, layout_length, Loader.strings, List.length_map]
      exact Nat.le_of_not_lt hi
    rw [none, List.getElem?_eq_none (Nat.le_of_not_lt hi)]
    rfl

theorem Laid.marshalled (h : Laid args g)
    (rest : ∀ w, stackLow ≤ w → w < lowest args → g w = 0) : Marshalled args (lowest args) g := by
  have pos := h.pos
  have top := lowest_add pos
  have array := h.array
  have arrayEnd := wordsTop_add (Nat.lt_trans (by decide) (wordsTop_pos pos))
  have stringsEnd : arrayTop args ≤ virtualAddrEnd := bottom_le _ _
  have room := h.room
  obtain ⟨between, order⟩ := strings_order pos
  have array : ∀ {w}, InSpan (argv virtualAddrEnd args, 4 * args.length) w →
      wordsTop args ≤ w ∧ w < arrayTop args := by
    rintro w ⟨low, high⟩
    dsimp only at low high
    by_cases none : args = []
    · rw [none] at low high
      exact absurd high (by simpa using low)
    · rw [argv_eq none] at low high
      omega
  have string : ∀ {w} {e : Nat × List UInt8}, e ∈ layout virtualAddrEnd (Loader.strings args) →
      InSpan (e.1, e.2.length) w → arrayTop args ≤ w ∧ w < virtualAddrEnd := by
    rintro w e mem ⟨low, high⟩
    have := between e mem
    dsimp only at low high
    omega
  refine ⟨lowest_dvd args, h.word (by decide) (by simp), h.word h.count (by simp),
    h.word (by decide) (by simp), h.word (by decide) (by simp), fun i hi => ?_, ?_, ?_, rest⟩
  · rw [h.array, argv_eq (List.ne_nil_of_length_pos (by omega))]
    exact h.strings hi
  · rw [h.ranges]
    intro range mem w here
    rcases List.mem_cons.mp mem with rfl | mem
    · have := here.2
      dsimp only at this
      exact ⟨Nat.le_trans room here.1, by omega⟩
    rcases List.mem_cons.mp mem with rfl | mem
    · have := array here
      omega
    · obtain ⟨e, inLayout, rfl⟩ := List.mem_map.mp mem
      have := string inLayout here
      omega
  · rw [h.ranges]
    refine .cons (fun range mem w both => ?_) (.cons (fun range mem w both => ?_) ?_)
    · have words := both.1.2
      dsimp only at words
      rcases List.mem_cons.mp mem with rfl | mem
      · have := array both.2
        omega
      · obtain ⟨e, inLayout, rfl⟩ := List.mem_map.mp mem
        have := string inLayout both.2
        omega
    · obtain ⟨e, inLayout, rfl⟩ := List.mem_map.mp mem
      have below := array both.1
      have above := string inLayout both.2
      omega
    · refine List.pairwise_map.mpr (order.imp fun below w both => ?_)
      have lower := both.2.2
      have upper := both.1.1
      dsimp only at lower upper
      omega

end

/-! ### The stack of a program that was started -/

/-- What a program sees of its stack, where `z` are the contents of the zero frame. -/
structure Shown (args : List (List UInt8)) (z g : Nat → UInt8) : Prop extends Laid args g where
  gaps : ∀ w, lowest args ≤ w → w < virtualAddrEnd →
    (∀ e ∈ layout virtualAddrEnd (pushed stackLow virtualAddrEnd args),
      ¬ (e.1 ≤ w ∧ w < e.1 + e.2.length)) → g w = 0
  own : ∀ w, stackLow ≤ w → w < lowest args → pageOf w = pageOf (lowest args) → g w = 0
  zero : ∀ w, stackLow ≤ w → w < lowest args → pageOf w ≠ pageOf (lowest args) →
    g w = z (w % pageSize)

section
variable {z : Nat → UInt8} {image : Image} {mid plan : Plan}

theorem lowest_lt (pos : 0 < lowest args) : lowest args < virtualAddrEnd := bottom_pushed_lt pos

/-- The sections leave the pages of the stack alone. -/
theorem Placement.stack_sight (h : Placement image args mid plan) {w : Nat} (low : stackLow ≤ w)
    (lt : w < virtualAddrEnd) : plan.sight (pageOf w) = mid.sight (pageOf w) := by
  have stack : InRange stackLow virtualAddrEnd (pageOf w) := ⟨w, low, lt, rfl⟩
  refine h.loaded.rest _ fun covers => ?_
  obtain ⟨-, avail, look⟩ := h.loaded.fresh _ covers
  by_cases top : InRange (lowest args) virtualAddrEnd (pageOf w)
  · rw [h.stacked.pushed _ top] at look
    cases look
  · rw [h.stacked.zero _ stack top] at look
    cases look

/-- The pages from the stack pointer on have frames of their own. -/
theorem Placement.stack_own (h : Placement image args mid plan) {w : Nat} (low : lowest args ≤ w)
    (lt : w < virtualAddrEnd) : Own (plan.sight (pageOf w)) := by
  refine ⟨.readWrite, ?_⟩
  rw [h.stack_sight (Nat.le_trans h.stacked.room low) lt]
  exact h.stacked.pushed _ ⟨w, low, lt, rfl⟩

theorem Placement.stack (h : Placement image args mid plan) {w : Nat} (low : stackLow ≤ w)
    (lt : w < virtualAddrEnd) : plan.shows z w = mid.shows z w := by
  have outside : ∀ sec ∈ image.sections, ¬ InSpan (span sec) w := by
    rintro sec mem ⟨above, below⟩
    have inFiles := (sections_sublist image).subset mem
    have accepted := h.accepted _ (span_mem inFiles) (by omega)
    omega
  have fits : ∀ sec ∈ image.sections, sec.start + sec.len ≤ virtualAddrEnd := fun sec mem =>
    h.fits _ (span_mem ((sections_sublist image).subset mem))
  rw [Plan.shows, Plan.shows, h.stack_sight low lt, h.loaded.byte,
    placedIn_outside mid.byte fits outside]

theorem Placement.shown (h : Placement image args mid plan) (short : Short args) :
    Shown args z (plan.shows z) := by
  have room : stackLow ≤ lowest args := h.stacked.room
  have pos : 0 < lowest args := Nat.lt_of_lt_of_le (by decide) room
  have order := layout_order pos
  -- a page of what was pushed
  have own : ∀ {w}, InRange (lowest args) virtualAddrEnd (pageOf w) → stackLow ≤ w →
      w < virtualAddrEnd → plan.shows z w = mid.byte w := by
    intro w top low lt
    rw [h.stack low lt, Plan.shows, h.stacked.pushed _ top]
  have here : ∀ {w}, lowest args ≤ w → w < virtualAddrEnd → plan.shows z w = mid.byte w :=
    fun low lt => own ⟨_, low, lt, rfl⟩ (Nat.le_trans room low) lt
  refine ⟨⟨room, ?_, fun e mem i hi => ?_⟩, fun w low lt none => ?_,
    fun w low lt same => ?_, fun w low lt other => ?_⟩
  · have count := short.count
    simp only [userMemStart] at count
    omega
  · have inside := order.1 e mem
    change lowest args ≤ _ ∧ _ at inside
    rw [here (by omega) (by omega)]
    exact h.stacked.holds e mem i hi
  · rw [here low lt]
    exact (h.stacked.gaps w low lt none).elim (fun same => same.trans rfl) id
  · have top := lowest_lt pos
    rw [own ⟨_, Nat.le_refl _, top, same.symm⟩ low (by omega)]
    exact h.stacked.below w lt
  · have top := lowest_lt pos
    have off : ¬ InRange (lowest args) virtualAddrEnd (pageOf w) := by
      rintro ⟨v, above, below, page⟩
      simp only [pageOf, pageSize, virtualAddrEnd] at *
      omega
    rw [h.stack low (by omega), Plan.shows,
      h.stacked.zero _ ⟨w, low, by omega, rfl⟩ off]

/-- All is where it should be just where the part below the stack pointer reads as zeros. -/
theorem Shown.marshalled_iff {g : Nat → UInt8} (h : Shown args z g) :
    Marshalled args (lowest args) g ↔
      lowest args < stackLow + pageSize ∨ ∀ off < pageSize, z off = 0 := by
  have room := h.room
  have first : stackLow % pageSize = 0 := by decide
  have top := lowest_lt h.pos
  constructor
  · intro all
    by_contra none
    simp only [not_or, Nat.not_lt, not_forall] at none
    obtain ⟨more, off, hoff, dirty⟩ := none
    -- the first page of the stack shows the zero frame
    have rest := all.rest (stackLow + off) (by omega) (by omega)
    have other : pageOf (stackLow + off) ≠ pageOf (lowest args) := by
      simp only [pageOf, pageSize, virtualAddrEnd] at *
      omega
    rw [h.zero _ (by omega) (by omega) other] at rest
    apply dirty
    rw [← rest]
    congr 1
    simp only [pageSize] at *
    omega
  · intro cond
    refine h.toLaid.marshalled fun w low lt => ?_
    by_cases same : pageOf w = pageOf (lowest args)
    · exact h.own w low lt same
    · rw [h.zero w low lt same]
      refine (cond.resolve_left fun few => same ?_) _ (Nat.mod_lt _ (by decide))
      simp only [pageOf, pageSize, virtualAddrEnd] at *
      omega

end

/-! ### The stack pointer -/

theorem foldl_pushedEsp {top : Nat} {vals : List (List UInt8)} (sizes : ∀ val ∈ vals, Sized val)
    (fits : top ≤ virtualAddrEnd) (high : userMemStart ≤ bottom top vals) :
    (vals.map List.length).foldl pushedEsp (top % virtualAddrEnd) =
      bottom top vals % virtualAddrEnd := by
  induction vals generalizing top with
  | nil => rfl
  | cons val vals ih =>
      obtain ⟨nonempty, small⟩ := sizes val List.mem_cons_self
      have some : 0 < val.length := List.length_pos_iff.mpr nonempty
      have below : bottom top (val :: vals) ≤ pushTo top val.length :=
        bottom_le (pushTo top val.length) vals
      have low := Nat.le_trans high below
      have le := pushTo_le top val.length
      have room := pushTo_add_le (Nat.lt_of_lt_of_le (by decide) low)
      have here : pushedEsp (top % virtualAddrEnd) val.length = pushTo top val.length := by
        rw [pushedEsp, if_neg (Nat.ne_of_gt some)]
        exact (pushVal_esp some small (Nat.le_trans low le) fits).1
      have rest := ih (fun v mem => sizes v (List.mem_cons_of_mem _ mem)) (Nat.le_trans le fits) high
      rw [Nat.mod_eq_of_lt (by omega)] at rest
      rw [List.map_cons, List.foldl_cons, here, rest]
      rfl

/-- The stack pointer that `load_executable` returns is the lowest address of all that is pushed. -/
theorem startEsp_eq (short : Short args) (room : stackLow ≤ lowest args) :
    startEsp 0 args = lowest args := by
  have lengths : args.map (fun arg => arg.length + 1) ++
      (if args = [] then [] else [args.length * 4]) ++ [4, 4, 4, 4, 4] =
        (pushed stackLow virtualAddrEnd args).map List.length := by
    have strings : (Loader.strings args).map List.length = args.map fun arg => arg.length + 1 := by
      rw [Loader.strings, List.map_map]
      exact List.map_congr_left fun arg _ => by simp
    have array : (argArray virtualAddrEnd args).map List.length =
        if args = [] then [] else [args.length * 4] := by
      by_cases none : args = []
      · subst none
        rfl
      · obtain ⟨val, one⟩ : ∃ val, argArray virtualAddrEnd args = [val] :=
          ⟨_, by rw [argArray, if_neg none]⟩
        have mem : val ∈ argArray virtualAddrEnd args := by
          rw [one]
          exact List.mem_singleton_self _
        have length := (argArray_length mem).2
        rw [one, if_neg none, List.map_singleton, length]
    rw [pushed, List.map_append, List.map_append, strings, array]
    rfl
  have high : userMemStart ≤ lowest args := Nat.le_trans (by decide) room
  have sizes : ∀ val ∈ pushed stackLow virtualAddrEnd args, Sized val := sized_pushed short
  have folded := foldl_pushedEsp sizes (Nat.le_refl _) high
  rw [← lengths] at folded
  change startEsp 0 args = lowest args % virtualAddrEnd at folded
  rw [folded, Nat.mod_eq_of_lt (lowest_lt (Nat.lt_of_lt_of_le (by decide) room))]

theorem Shown.congr {z g g' : Nat → UInt8} (h : Shown args z g)
    (agree : ∀ w, stackLow ≤ w → w < virtualAddrEnd → g w = g' w) : Shown args z g' := by
  have room := h.room
  have top := lowest_lt h.pos
  refine ⟨⟨room, h.count, fun e mem i hi => ?_⟩, fun w low lt none => ?_, fun w low lt same => ?_,
    fun w low lt other => ?_⟩
  · have inside := (layout_order h.pos).1 e mem
    change lowest args ≤ _ ∧ _ at inside
    rw [← agree _ (by omega) (by omega)]
    exact h.holds e mem i hi
  · rw [← agree w (by omega) lt]
    exact h.gaps w low lt none
  · rw [← agree w low (by omega)]
    exact h.own w low lt same
  · rw [← agree w low (by omega)]
    exact h.zero w low lt other

end

/-! ### The call -/

section
variable {d t : Nat} {z : Nat → UInt8} {m m' : Machine} {p : Nat} {pr : Proc} {elf : Elf}
variable {name : List UInt8} {args : List (List UInt8)}

/-- A program that `load_executable` has started sees its arguments on its stack. -/
theorem started_shown (caller : Caller m p pr) (words : Words elf.toImage)
    (user : elf.guest = false)
    (ran : m.eval (loadExecutable (some elf) name args) = (m', some true)) :
    m'.ureg.esp = lowest args ∧ startEsp 0 args = lowest args ∧
      Shown args (zeros m) (m'.kernel.mem.byteAt m'.cr3) := by
  obtain ⟨plan, h⟩ := started caller user ran
  obtain ⟨mid, placement⟩ := h.planned.placement words
  have shown : Shown args (zeros m) (plan.shows (zeros m)) := placement.shown h.planned.short
  have esp := startEsp_eq h.planned.short shown.room
  refine ⟨?_, esp, shown.congr fun w low lt => ?_⟩
  · rw [h.ureg, Elf.ureg, user]
    exact esp
  · have user : UserPage (pageOf w) := userPage_of_high (Nat.le_trans (by decide) low) lt
    exact (h.fits.bytes w ⟨lt, user⟩).symm

/-- Arguments that do not fit into the stack. -/
theorem fills_loadImage_full {image : Image} (user : image.guest = false) (short : Short args)
    (full : lowest args < stackLow) :
    Fills d t z (stackLow ≤ ·) blank (loadImage d image args) fun r _ => r = none := by
  unfold loadImage
  rw [user]
  refine Fills.bind (fills_loadStack short closed_blank fun w low _ => low) fun r mid stack => ?_
  rcases r with - | placed
  · exact .ret rfl
  · exact absurd (stack placed rfl).room (Nat.not_le.mpr full)

/-- `load_executable` puts the arguments of a program that is not a guest onto its stack, and
fails where they do not fit, before it stores anything below. The part of the stack below
the stack pointer reads as zeros just where the zero frame was clean before, or the
arguments reach into the lowest page. -/
theorem arguments_marshalled_iff (caller : Caller m p pr) (words : Words elf.toImage)
    (user : elf.guest = false) :
    (∀ m', m.eval (loadExecutable (some elf) name args) = (m', some true) →
      (Marshalled args m'.ureg.esp (m'.kernel.mem.byteAt m'.cr3) ↔
        startEsp 0 args < stackLow + pageSize ∨
          ∀ off < pageSize, m.kernel.mem.phys (zeroFrame + off) = 0)) ∧
    (lowest args < stackLow → (m.eval (loadExecutable (some elf) name args)).2 = some false ∧
      (loadExecutable (some elf) name args).Meets Machine.exec Machine.live
        (Places (stackLow ≤ ·)) m) := by
  refine ⟨fun m' ran => ?_, fun full => ?_⟩
  · obtain ⟨esp, start, shown⟩ := started_shown caller words user ran
    rw [esp, start]
    exact shown.marshalled_iff
  · rcases loadExecutable_runs caller elf name args with ⟨fails, -⟩ | ⟨s₁, starts, loads⟩
    · exact ⟨fails.1, fails.2 _⟩
    obtain ⟨s₂, r, plan, eval, -, rfl, -, meets⟩ :=
      (fills_loadImage_full user starts.short full).run starts.fits starts.alive
    refine ⟨?_, (loads.places _).mpr meets⟩
    rw [loads.result, eval]
    rfl

end

theorem arguments_marshalled_iff_bss : ∃ m m', Syscall.boot 4110 (fun _ => true) (fun _ => 0)
    emptyCtl = some m ∧ m.eval (loadExecutable (some bssElf) [65] [[98]]) = (m', some true) ∧
      (Marshalled [[98]] m'.ureg.esp (m'.kernel.mem.byteAt m'.cr3) ↔
        startEsp 0 [[98]] < stackLow + pageSize ∨
          ∀ off < pageSize, m.kernel.mem.phys (zeroFrame + off) = 0) := by
  have ran : (Syscall.boot 4110 (fun _ => true) (fun _ => 0) emptyCtl).map (fun m =>
      (m.eval (loadExecutable (some bssElf) [65] [[98]])).2) = some (some true) := by
    decide +kernel
  obtain ⟨m, started, loaded⟩ := Option.map_eq_some_iff.mp ran
  obtain ⟨pr, caller⟩ := boot_caller (by decide) started
  exact ⟨m, _, started, Prod.ext rfl loaded,
    (arguments_marshalled_iff caller words_bssElf rfl).1 _ (Prod.ext rfl loaded)⟩

/-- A program whose last one has read into its `.bss` finds that on its stack. -/
theorem stack_not_zero : ∃ m m₁ m', Syscall.boot 4110 (fun _ => true) (fun _ => 0) emptyCtl =
    some m ∧ m.eval readIntoBss = (m₁, some true) ∧
      m₁.eval (loadExecutable (some bssElf) [65] []) = (m', some true) ∧
      ¬ Marshalled [] m'.ureg.esp (m'.kernel.mem.byteAt m'.cr3) := by
  obtain ⟨m, m₁, m', started, first, again, -, byte, esp⟩ := bss_dirty
  refine ⟨m, m₁, m', started, first, again, fun all => ?_⟩
  have zero := all.rest stackLow (Nat.le_refl _) esp
  rw [byte] at zero
  cases zero

end OsKernel.Loader
