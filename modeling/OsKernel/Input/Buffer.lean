/-
`buf_t` (`kern/inc/keyboard.h`, `kern/keyboard.c`) as a bounded sequence.

The fields are the `int`s of the source, and the array is indexed by them. `contents` reads
the characters from the head on; each operation is described by what it does to them, and
`buf_refines_deque` says that in every run a buffer is a double-ended sequence of at most
`BUF_LEN` elements. The pointers are those of variables of the callers: the tests for `NULL`
fail.
-/

import OsKernel.Lib.Deque
import OsKernel.Lib.Run
import Mathlib.Data.List.Infix
import Mathlib.Logic.Function.Basic
import Mathlib.Tactic.Common

namespace OsKernel.Input

abbrev Byte := BitVec 8

/-- `BUF_LEN` -/
def bufLen : Int := 1024

structure Buf where
  startIdx : Int
  elementCount : Int
  array : Int → Byte

namespace Buf

/-- A buffer as the kernel starts with it. -/
def fresh : Buf := ⟨0, 0, fun _ => 0⟩

/-- `push_tail` -/
def pushTail (b : Buf) (element : Byte) : Buf × Int :=
  if b.elementCount ≥ bufLen then (b, -1)
  else
    let elementIdx := (b.startIdx + b.elementCount).tmod bufLen
    ({ b with
        array := Function.update b.array elementIdx element
        elementCount := b.elementCount + 1 }, 0)

/-- `pop_head`; none if it fails, else the element. -/
def popHead (b : Buf) : Buf × Option Byte :=
  if b.elementCount ≤ 0 then (b, none)
  else
    ({ b with
        elementCount := b.elementCount - 1
        startIdx := (b.startIdx + 1).tmod bufLen }, some (b.array b.startIdx))

/-- `pop_tail`; none if it fails, else the element. -/
def popTail (b : Buf) : Buf × Option Byte :=
  if b.elementCount ≤ 0 then (b, none)
  else
    let elementCount := b.elementCount - 1
    let elementIdx := (b.startIdx + elementCount).tmod bufLen
    ({ b with elementCount := elementCount }, some (b.array elementIdx))

/-! ### Contents -/

/-- The fields are in their ranges. -/
structure Valid (b : Buf) : Prop where
  start_nonneg : 0 ≤ b.startIdx
  start_lt : b.startIdx < bufLen
  count_nonneg : 0 ≤ b.elementCount
  count_le : b.elementCount ≤ bufLen

/-- The element at a distance from the head. -/
def get (b : Buf) (i : Nat) : Byte := b.array ((b.startIdx + i).tmod bufLen)

/-- The elements, from the head to the tail. -/
def contents (b : Buf) : List Byte := (List.range b.elementCount.toNat).map b.get

theorem valid_fresh : fresh.Valid := ⟨by decide, by decide, by decide, by decide⟩

theorem contents_fresh : fresh.contents = [] := rfl

variable {b : Buf}

theorem Valid.length (valid : b.Valid) : (b.contents.length : Int) = b.elementCount := by
  rw [contents, List.length_map, List.length_range]
  exact Int.toNat_of_nonneg valid.count_nonneg

theorem Valid.length_le (valid : b.Valid) : b.contents.length ≤ 1024 := by
  have length := valid.length
  have le := valid.count_le
  simp only [bufLen] at le
  omega

/-- A failed `push_tail` leaves the buffer as it is; it fails when the buffer is full. -/
theorem Valid.pushTail_full (valid : b.Valid) (full : b.contents.length = 1024) (c : Byte) :
    b.pushTail c = (b, -1) := by
  have length := valid.length
  rw [pushTail, if_pos (by simp only [bufLen]; omega)]

theorem pushTail_index (valid : b.Valid) {i : Nat} (lt : (i : Int) < b.elementCount)
    (room : b.elementCount < bufLen) :
    (b.startIdx + i).tmod bufLen ≠ (b.startIdx + b.elementCount).tmod bufLen := by
  have start := valid.start_nonneg
  have bound := valid.start_lt
  simp only [bufLen] at *
  rw [Int.tmod_eq_emod_of_nonneg (by omega), Int.tmod_eq_emod_of_nonneg (by omega)]
  omega

theorem Valid.pushTail (valid : b.Valid) (room : b.contents.length < 1024) (c : Byte) :
    (b.pushTail c).2 = 0 ∧ (b.pushTail c).1.Valid ∧ (b.pushTail c).1.contents = b.contents ++ [c] := by
  have length := valid.length
  have fits : b.elementCount < bufLen := by simp only [bufLen]; omega
  have nonneg := valid.count_nonneg
  rw [Buf.pushTail, if_neg (by omega)]
  refine ⟨rfl, ⟨valid.start_nonneg, valid.start_lt, by dsimp only; omega, by dsimp only; omega⟩, ?_⟩
  rw [contents, contents]
  dsimp only
  rw [Int.toNat_add nonneg (by decide), show (1 : Int).toNat = 1 from rfl, List.range_succ,
    List.map_append, List.map_singleton]
  congr 1
  · refine List.map_congr_left fun i mem => ?_
    have lt : (i : Int) < b.elementCount := by
      have bound := List.mem_range.mp mem
      omega
    exact Function.update_of_ne (pushTail_index valid lt fits) _ _
  · rw [get]
    dsimp only
    rw [Int.toNat_of_nonneg nonneg, Function.update_self]

theorem popHead_empty (empty : b.contents = []) : b.popHead = (b, none) := by
  rw [contents, List.map_eq_nil_iff, List.range_eq_nil, Int.toNat_eq_zero] at empty
  rw [popHead, if_pos empty]

theorem popTail_empty (empty : b.contents = []) : b.popTail = (b, none) := by
  rw [contents, List.map_eq_nil_iff, List.range_eq_nil, Int.toNat_eq_zero] at empty
  rw [popTail, if_pos empty]

theorem Valid.count_pos (valid : b.Valid) (nonempty : b.contents ≠ []) : 0 < b.elementCount := by
  have length := valid.length
  have pos := List.length_pos_iff.mpr nonempty
  omega

/-- The head, and what follows it. -/
theorem Valid.uncons (valid : b.Valid) (pos : 0 < b.elementCount) :
    b.popHead.2 = some (b.get 0) ∧ b.popHead.1.Valid ∧
      b.contents = b.get 0 :: b.popHead.1.contents := by
  have start := valid.start_nonneg
  have bound := valid.start_lt
  have le := valid.count_le
  obtain ⟨n, count⟩ : ∃ n : Nat, b.elementCount = n + 1 := ⟨(b.elementCount - 1).toNat, by omega⟩
  rw [Buf.popHead, if_neg (by omega)]
  refine ⟨congrArg some ?_, ⟨?_, ?_, ?_, ?_⟩, ?_⟩
  · rw [get, Int.natCast_zero, Int.add_zero, Int.tmod_eq_emod_of_nonneg start,
      Int.emod_eq_of_lt start bound]
  · exact Int.tmod_nonneg bufLen (by omega)
  · exact Int.tmod_lt_of_pos (b.startIdx + 1) (by decide)
  · dsimp only
    omega
  · dsimp only
    omega
  · rw [contents, contents]
    dsimp only
    rw [count, Int.add_sub_cancel, Int.toNat_natCast, show ((n : Int) + 1).toNat = n + 1 from rfl,
      List.range_succ_eq_map, List.map_cons, List.map_map]
    refine congrArg (b.get 0 :: ·) (List.map_congr_left fun i _ => congrArg b.array ?_)
    simp only [bufLen] at *
    have next := Int.tmod_eq_emod_of_nonneg (b := 1024) (show 0 ≤ b.startIdx + 1 by omega)
    rw [next, Int.tmod_eq_emod_of_nonneg (by omega), Int.tmod_eq_emod_of_nonneg (by omega)]
    omega

theorem Valid.popHead (valid : b.Valid) {c : Byte} {l : List Byte} (whole : b.contents = c :: l) :
    b.popHead.2 = some c ∧ b.popHead.1.Valid ∧ b.popHead.1.contents = l := by
  have pos := valid.count_pos (whole ▸ List.cons_ne_nil c l)
  obtain ⟨element, valid', parts⟩ := valid.uncons pos
  obtain ⟨head, tail⟩ := List.cons.inj (parts.symm.trans whole)
  exact ⟨element.trans (congrArg some head), valid', tail⟩

/-- The tail, and what stands before it. -/
theorem Valid.unsnoc (valid : b.Valid) (pos : 0 < b.elementCount) :
    ∃ c, b.popTail.2 = some c ∧ b.popTail.1.Valid ∧ b.contents = b.popTail.1.contents ++ [c] := by
  have le := valid.count_le
  obtain ⟨n, count⟩ : ∃ n : Nat, b.elementCount = n + 1 := ⟨(b.elementCount - 1).toNat, by omega⟩
  refine ⟨b.get n, ?_⟩
  rw [Buf.popTail, if_neg (by omega)]
  dsimp only
  rw [count, Int.add_sub_cancel]
  refine ⟨rfl, ⟨valid.start_nonneg, valid.start_lt, by dsimp only; omega, by dsimp only; omega⟩, ?_⟩
  rw [contents, count, show ((n : Int) + 1).toNat = n + 1 from rfl, List.range_succ, List.map_append]
  rfl

theorem Valid.popTail (valid : b.Valid) {c : Byte} {l : List Byte} (whole : b.contents = l ++ [c]) :
    b.popTail.2 = some c ∧ b.popTail.1.Valid ∧ b.popTail.1.contents = l := by
  have pos := valid.count_pos (by simp [whole])
  obtain ⟨d, element, valid', parts⟩ := valid.unsnoc pos
  obtain ⟨front, last⟩ := List.append_inj' (parts.symm.trans whole) rfl
  exact ⟨element.trans (congrArg some (List.cons.inj last).1), valid', front⟩

/-! ### Runs -/

/-- A call, and what it tells its caller. A negative value is a failure. -/
def step (b : Buf) : Deque.Op Byte → Buf × Deque.Answer Byte
  | .pushTail element =>
      let (b, result) := b.pushTail element
      (b, if result < 0 then .failed else .pushed)
  | .popHead => match b.popHead with
      | (b, none) => (b, .failed)
      | (b, some element) => (b, .popped element)
  | .popTail => match b.popTail with
      | (b, none) => (b, .failed)
      | (b, some element) => (b, .popped element)

/-- The buffer holds the elements of the sequence. -/
structure Represents (b : Buf) (q : Deque Byte bufLen.toNat) : Prop where
  valid : b.Valid
  contents : b.contents = q.items

variable {q : Deque Byte bufLen.toNat}

theorem represents_empty (valid : b.Valid) (empty : b.elementCount = 0) :
    b.Represents Deque.empty := by
  refine ⟨valid, ?_⟩
  rw [contents, empty]
  rfl

theorem Represents.pushTail (h : b.Represents q) (c : Byte) :
    (b.step (.pushTail c)).2 = (q.step (.pushTail c)).2 ∧
      (b.step (.pushTail c)).1.Represents (q.step (.pushTail c)).1 := by
  by_cases full : q.items.length = bufLen.toNat
  · have whole : b.contents.length = 1024 := by
      rw [h.contents]
      exact full
    rw [step, h.valid.pushTail_full whole, Deque.step, Deque.pushTail_full full]
    exact ⟨rfl, h⟩
  · have room : b.contents.length < 1024 := by
      rw [h.contents]
      exact Nat.lt_of_le_of_ne q.fits full
    obtain ⟨result, valid, contents⟩ := h.valid.pushTail room c
    obtain ⟨q', pushed, items⟩ := Deque.pushTail_room (x := c) full
    rw [Deque.step, pushed]
    refine ⟨?_, valid, ?_⟩
    · simp only [step, result]
      rfl
    · exact contents.trans (by rw [h.contents, items])

theorem Represents.popHead (h : b.Represents q) :
    (b.step .popHead).2 = (q.step .popHead).2 ∧
      (b.step .popHead).1.Represents (q.step .popHead).1 := by
  cases whole : q.items with
  | nil =>
      rw [step, popHead_empty (h.contents.trans whole), Deque.step, Deque.popHead_empty whole]
      exact ⟨rfl, h⟩
  | cons c l =>
      obtain ⟨element, valid, contents⟩ := h.valid.popHead (h.contents.trans whole)
      obtain ⟨q', popped, items⟩ := Deque.popHead_cons whole
      rw [step, show b.popHead = (b.popHead.1, some c) from Prod.ext rfl element, Deque.step, popped]
      exact ⟨rfl, valid, contents.trans items.symm⟩

theorem Represents.popTail (h : b.Represents q) :
    (b.step .popTail).2 = (q.step .popTail).2 ∧
      (b.step .popTail).1.Represents (q.step .popTail).1 := by
  rcases List.eq_nil_or_concat q.items with whole | ⟨l, c, whole⟩
  · rw [step, popTail_empty (h.contents.trans whole), Deque.step, Deque.popTail_empty whole]
    exact ⟨rfl, h⟩
  · rw [List.concat_eq_append] at whole
    obtain ⟨element, valid, contents⟩ := h.valid.popTail (h.contents.trans whole)
    obtain ⟨q', popped, items⟩ := Deque.popTail_concat whole
    rw [step, show b.popTail = (b.popTail.1, some c) from Prod.ext rfl element, Deque.step, popped]
    exact ⟨rfl, valid, contents.trans items.symm⟩

/-- One call does what it does to the sequence. -/
theorem Represents.step (h : b.Represents q) (op : Deque.Op Byte) :
    (b.step op).2 = (q.step op).2 ∧ (b.step op).1.Represents (q.step op).1 := by
  cases op with
  | pushTail c => exact h.pushTail c
  | popHead => exact h.popHead
  | popTail => exact h.popTail

/-- A call that fails changes nothing. -/
theorem step_failed {op : Deque.Op Byte} (failed : (b.step op).2 = .failed) :
    (b.step op).1 = b := by
  cases op with
  | pushTail c =>
      by_cases full : b.elementCount ≥ bufLen
      · rw [step, Buf.pushTail, if_pos full]
      · rw [step, Buf.pushTail, if_neg full] at failed
        cases failed
  | popHead =>
      by_cases empty : b.elementCount ≤ 0
      · rw [step, Buf.popHead, if_pos empty]
      · rw [step, Buf.popHead, if_neg empty] at failed
        cases failed
  | popTail =>
      by_cases empty : b.elementCount ≤ 0
      · rw [step, Buf.popTail, if_pos empty]
      · rw [step, Buf.popTail, if_neg empty] at failed
        cases failed

/-- From an empty buffer on, every run of calls gives the answers of a sequence of at most
`BUF_LEN` elements and holds its elements. A call fails exactly where the sequence is full or
empty, and then changes nothing. -/
theorem buf_refines_deque (start_nonneg : 0 ≤ b.startIdx) (start_lt : b.startIdx < bufLen)
    (empty : b.elementCount = 0) (ops : List (Deque.Op Byte)) :
    let b' := Run.run (fun b op => (step b op).1) b ops
    let q : Deque Byte bufLen.toNat := Run.run (fun q op => (q.step op).1) Deque.empty ops
    (0 ≤ b'.startIdx ∧ b'.startIdx < bufLen) ∧ (0 ≤ b'.elementCount ∧ b'.elementCount ≤ bufLen) ∧
      Run.answers step b ops = Run.answers Deque.step (Deque.empty : Deque Byte bufLen.toNat) ops ∧
      b'.contents = q.items ∧
      ∀ op, ((b'.step op).2 = .failed ↔ q.Refuses op) ∧ ((b'.step op).2 = .failed → (b'.step op).1 = b') := by
  have valid : b.Valid := ⟨start_nonneg, start_lt, by omega, by simp only [bufLen]; omega⟩
  obtain ⟨answers, h⟩ := Run.answers_of_simulates (R := Represents)
    (fun _ _ op h => h.step op) (represents_empty valid empty) ops
  refine ⟨⟨h.valid.start_nonneg, h.valid.start_lt⟩, ⟨h.valid.count_nonneg, h.valid.count_le⟩, answers,
    h.contents, fun op => ⟨?_, step_failed⟩⟩
  rw [(h.step op).1, Deque.step_failed_iff]

/-- Three elements around the end of the array, and a pop of nothing. -/
theorem buf_refines_deque_wrapped :
    let ops : List (Deque.Op Byte) :=
      [.popTail, .pushTail 7, .pushTail 8, .pushTail 9, .popHead, .popTail]
    let b : Buf := { fresh with startIdx := 1022 }
    (Run.run (fun b op => (step b op).1) b ops).contents = [8] ∧
      Run.answers step b ops = [.failed, .pushed, .pushed, .pushed, .popped 7, .popped 9] := by
  obtain ⟨-, -, answers, contents, -⟩ := buf_refines_deque (b := { fresh with startIdx := 1022 })
    (by decide) (by decide) rfl
    [.popTail, .pushTail 7, .pushTail 8, .pushTail 9, .popHead, .popTail]
  exact ⟨contents.trans rfl, answers.trans rfl⟩

end Buf

end OsKernel.Input
