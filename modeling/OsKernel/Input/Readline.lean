/-
What `readline` returns (`handle_readline` of `kern/system_call.c`).

The lock lets one caller in at a time, so calls are served one after another. The
characters that `extract_ch` will produce are a list; a call that comes to its end waits,
and has no reply. `edited` says what the characters mean, without a buffer.
-/

import OsKernel.Input.Buffer

namespace OsKernel.Input

/-- `KHE_BACKSPACE` -/
def backspace : Byte := 8

/-- `KHE_ENTER` -/
def enter : Byte := 10

structure Call where
  len : Int
  /-- `is_writable` accepts the buffer of the caller. -/
  writable : Bool
deriving DecidableEq

/-- The result, and what is written to the buffer of the caller. -/
structure Reply where
  eax : Int
  bytes : List Byte
deriving DecidableEq

/-- A character goes to `ch_buf`; true if it ends the line. -/
def edit (chBuf : Buf) (ch : Byte) : Buf × Bool :=
  if ch = backspace then (chBuf.popTail.1, false)
  else if ch = enter then ((chBuf.pushTail ch).1, true)
  else ((chBuf.pushTail ch).1, false)

/-- The loop that reads a line, and the characters behind it. -/
def readLine (chBuf : Buf) : List Byte → Option (Buf × List Byte)
  | [] => none
  | ch :: chars =>
      if (edit chBuf ch).2 then some ((edit chBuf ch).1, chars) else readLine (edit chBuf ch).1 chars

/-- The loop that copies to the caller at most so many characters. -/
def copyOut : Nat → Buf → List Byte × Buf
  | 0, chBuf => ([], chBuf)
  | n + 1, chBuf => match chBuf.popHead with
    | (chBuf, none) => ([], chBuf)
    | (chBuf, some ch) => (ch :: (copyOut n chBuf).1, (copyOut n chBuf).2)

/-- The end of a call. -/
def reply (len : Int) (chBuf : Buf) (chars : List Byte) : Reply × Buf × List Byte :=
  (⟨(copyOut len.toNat chBuf).1.length, (copyOut len.toNat chBuf).1⟩,
    (copyOut len.toNat chBuf).2, chars)

/-- `handle_readline`; none while it waits. -/
def handleReadline (chBuf : Buf) (chars : List Byte) (call : Call) :
    Option (Reply × Buf × List Byte) :=
  if call.len < 0 ∨ call.len > bufLen ∨ call.writable = false then some (⟨-1, []⟩, chBuf, chars)
  else if call.len = 0 then some (⟨0, []⟩, chBuf, chars)
  else if chBuf.elementCount > 0 then some (reply call.len chBuf chars)
  else (readLine chBuf chars).map fun (chBuf, chars) => reply call.len chBuf chars

/-- Calls in the order in which they are served, up to the first that waits. -/
def serve (chBuf : Buf) (chars : List Byte) : List Call → List Reply
  | [] => []
  | call :: calls => match handleReadline chBuf chars call with
    | none => []
    | some (reply, chBuf, chars) => reply :: serve chBuf chars calls

/-! ### Editing -/

/-- A line after one more character, which does not end it. -/
def typed (line : List Byte) (ch : Byte) : List Byte :=
  if ch = backspace then line.dropLast else line ++ [ch]

/-- The characters of the edited stream, of which `line` is the unfinished line. -/
def edited (line : List Byte) : List Byte → List Byte
  | [] => line
  | ch :: chars => if ch = enter then line ++ enter :: edited [] chars else edited (typed line ch) chars

/-- The unfinished line after some characters. -/
def unfinished (line : List Byte) (chars : List Byte) : List Byte :=
  chars.foldl (fun line ch => if ch = enter then [] else typed line ch) line

/-- No unfinished line is longer than 1023 characters. -/
def Fits (line chars : List Byte) : Prop :=
  ∀ pre, pre <+: chars → (unfinished line pre).length ≤ 1023

section
variable {line chars : List Byte} {ch : Byte} {chBuf : Buf}

theorem Fits.now (fits : Fits line chars) : line.length ≤ 1023 := fits [] (List.nil_prefix)

theorem Fits.next (fits : Fits line (ch :: chars)) :
    Fits (if ch = enter then [] else typed line ch) chars := fun pre whole =>
  fits (ch :: pre) ((List.prefix_cons_inj ch).mpr whole)

/-- The buffer holds the line. -/
structure Holds (chBuf : Buf) (line : List Byte) : Prop where
  valid : chBuf.Valid
  contents : chBuf.contents = line

theorem Holds.popTail (holds : Holds chBuf line) : Holds chBuf.popTail.1 line.dropLast := by
  have whole := holds.contents
  rcases List.eq_nil_or_concat line with rfl | ⟨front, last, rfl⟩
  · rw [Buf.popTail_empty whole]
    exact holds
  · rw [List.concat_eq_append] at whole ⊢
    obtain ⟨-, valid, contents⟩ := holds.valid.popTail whole
    exact ⟨valid, by rw [contents, List.dropLast_concat]⟩

theorem Holds.pushTail (holds : Holds chBuf line) (room : line.length ≤ 1023) (ch : Byte) :
    Holds (chBuf.pushTail ch).1 (line ++ [ch]) := by
  have room : chBuf.contents.length < 1024 := by rw [holds.contents]; omega
  obtain ⟨-, valid, contents⟩ := holds.valid.pushTail room ch
  exact ⟨valid, by rw [contents, holds.contents]⟩

theorem edit_enter (holds : Holds chBuf line) (room : line.length ≤ 1023) :
    (edit chBuf enter).2 = true ∧ Holds (edit chBuf enter).1 (line ++ [enter]) :=
  ⟨rfl, holds.pushTail room enter⟩

theorem edit_other (holds : Holds chBuf line) (room : line.length ≤ 1023) (other : ch ≠ enter) :
    (edit chBuf ch).2 = false ∧ Holds (edit chBuf ch).1 (typed line ch) := by
  rw [edit, typed]
  by_cases back : ch = backspace
  · rw [if_pos back, if_pos back]
    exact ⟨rfl, holds.popTail⟩
  · rw [if_neg back, if_neg back, if_neg other]
    exact ⟨rfl, holds.pushTail room ch⟩

/-- A line, as it is read: what is left of it ends it. -/
def Line (line : List Byte) : Prop := ∃ front, line = front ++ [enter] ∧ enter ∉ front

theorem not_mem_typed (none : enter ∉ line) (other : ch ≠ enter) : enter ∉ typed line ch := by
  rw [typed]
  split
  · exact fun mem => none (List.dropLast_subset line mem)
  · rw [List.mem_append, List.mem_singleton]
    exact fun mem => mem.elim none fun same => other same.symm

/-- A line that is read is the next one of the edited stream. -/
theorem readLine_spec (holds : Holds chBuf line) (none : enter ∉ line) (fits : Fits line chars)
    {chBuf' : Buf} {chars' : List Byte} (reads : readLine chBuf chars = some (chBuf', chars')) :
    chBuf'.Valid ∧ Line chBuf'.contents ∧ Fits [] chars' ∧
      edited line chars = chBuf'.contents ++ edited [] chars' := by
  induction chars generalizing chBuf line with
  | nil => cases reads
  | cons ch chars ih =>
      rw [readLine] at reads
      by_cases ends : ch = enter
      · subst ends
        obtain ⟨newline, after⟩ := edit_enter holds fits.now
        rw [if_pos newline, Option.some.injEq, Prod.mk.injEq] at reads
        obtain ⟨rfl, rfl⟩ := reads
        have rest := fits.next
        rw [if_pos rfl] at rest
        refine ⟨after.valid, ⟨line, after.contents, none⟩, rest, ?_⟩
        rw [edited, if_pos rfl, after.contents, List.append_assoc, List.singleton_append]
      · obtain ⟨newline, after⟩ := edit_other holds fits.now ends
        rw [if_neg (by rw [newline]; exact Bool.false_ne_true)] at reads
        have rest := fits.next
        rw [if_neg ends] at rest
        rw [edited, if_neg ends]
        exact ih after (not_mem_typed none ends) rest reads

/-- Only a newline ends a line. -/
theorem edit_ends (chBuf : Buf) (ch : Byte) : (edit chBuf ch).2 = decide (ch = enter) := by
  rw [edit]
  by_cases back : ch = backspace
  · rw [if_pos back, back]
    rfl
  · rw [if_neg back]
    by_cases ends : ch = enter
    · rw [if_pos ends, ends]
      rfl
    · rw [if_neg ends, decide_eq_false ends]

/-- Where the loop waits for ever, there is no newline left. -/
theorem not_mem_of_waits (waits : readLine chBuf chars = none) : enter ∉ chars := by
  induction chars generalizing chBuf with
  | nil => exact List.not_mem_nil
  | cons ch chars ih =>
      rw [readLine, edit_ends] at waits
      by_cases ends : ch = enter
      · rw [if_pos (decide_eq_true ends)] at waits
        cases waits
      · rw [if_neg (by simpa using ends)] at waits
        intro mem
        rcases List.mem_cons.mp mem with same | mem
        · exact ends same.symm
        · exact ih waits mem

/-- The unfinished line does not depend on the lines before it. -/
theorem readLine_unfinished {chBuf' : Buf} {chars' : List Byte}
    (reads : readLine chBuf chars = some (chBuf', chars')) :
    unfinished line chars = unfinished [] chars' := by
  induction chars generalizing chBuf line with
  | nil => cases reads
  | cons ch chars ih =>
      rw [readLine, edit_ends] at reads
      rw [unfinished, List.foldl_cons]
      by_cases ends : ch = enter
      · rw [if_pos (decide_eq_true ends), Option.some.injEq, Prod.mk.injEq] at reads
        rw [if_pos ends, reads.2]
        rfl
      · rw [if_neg (by simpa using ends)] at reads
        exact ih reads

/-- Without a newline everything is the unfinished line. -/
theorem edited_of_not_mem (none : enter ∉ chars) : edited line chars = unfinished line chars := by
  induction chars generalizing line with
  | nil => rfl
  | cons ch chars ih =>
      obtain ⟨other, rest⟩ := not_or.mp (mt List.mem_cons.mpr none)
      rw [edited, if_neg (Ne.symm other), ih rest, unfinished, unfinished, List.foldl_cons,
        if_neg (Ne.symm other)]

theorem copyOut_spec (n : Nat) (valid : chBuf.Valid) :
    (copyOut n chBuf).1 = chBuf.contents.take n ∧
      Holds (copyOut n chBuf).2 (chBuf.contents.drop n) := by
  induction n generalizing chBuf with
  | zero => exact ⟨rfl, valid, rfl⟩
  | succ n ih =>
      rw [copyOut]
      cases whole : chBuf.contents with
      | nil =>
          rw [Buf.popHead_empty whole]
          exact ⟨rfl, valid, whole⟩
      | cons ch rest =>
          obtain ⟨element, valid', contents⟩ := valid.popHead whole
          rw [show chBuf.popHead = (chBuf.popHead.1, some ch) from Prod.ext rfl element]
          obtain ⟨taken, left⟩ := ih valid'
          rw [contents] at taken left
          exact ⟨congrArg (ch :: ·) taken, left⟩

end

/-! ### Service -/

/-- A call that the kernel does not refuse. -/
def Call.Proper (call : Call) : Prop := 1 ≤ call.len ∧ call.len ≤ 1024 ∧ call.writable = true

/-- Between one character and as many as were asked for, a newline only at the end. -/
def Reply.Good (reply : Reply) (call : Call) : Prop :=
  reply.eax = reply.bytes.length ∧ 1 ≤ reply.bytes.length ∧ reply.bytes.length ≤ call.len ∧
    enter ∉ reply.bytes.dropLast

/-- Between two calls the buffer holds what is left of one line. -/
structure Ready (chBuf : Buf) : Prop where
  valid : chBuf.Valid
  line : chBuf.contents = [] ∨ Line chBuf.contents

section
variable {chars chars' : List Byte} {chBuf chBuf' : Buf} {call : Call}

theorem Line.drop {line : List Byte} (ends : Line line) (n : Nat) : line.drop n = [] ∨ Line (line.drop n) := by
  obtain ⟨front, rfl, none⟩ := ends
  by_cases all : front.length < n
  · exact .inl (List.drop_eq_nil_of_le (by simp; omega))
  · refine .inr ⟨front.drop n, List.drop_append_of_le_length (by omega), fun mem => ?_⟩
    exact none (List.mem_of_mem_drop mem)

theorem Line.take {line : List Byte} (ends : Line line) (n : Nat) : enter ∉ (line.take n).dropLast := by
  obtain ⟨front, rfl, none⟩ := ends
  intro mem
  rw [List.dropLast_eq_take, List.take_take, List.take_append_of_le_length (by
    simp only [List.length_take, List.length_append, List.length_singleton]
    omega)] at mem
  exact none (List.mem_of_mem_take mem)

/-- A call that finds a line, or what is left of one. -/
theorem reply_spec (chars : List Byte) (valid : chBuf.Valid) (line : Line chBuf.contents)
    (low : 1 ≤ call.len) :
    (reply call.len chBuf chars).1.Good call ∧ Ready (reply call.len chBuf chars).2.1 ∧
      chBuf.contents = (reply call.len chBuf chars).1.bytes ++
        (reply call.len chBuf chars).2.1.contents := by
  obtain ⟨taken, valid', left⟩ := copyOut_spec call.len.toNat valid
  have pos : 0 < chBuf.contents.length := by
    obtain ⟨front, whole, -⟩ := line
    rw [whole, List.length_append, List.length_singleton]
    exact Nat.succ_pos _
  rw [reply, Reply.Good]
  dsimp only
  rw [left, taken]
  have length : (chBuf.contents.take call.len.toNat).length = min call.len.toNat chBuf.contents.length :=
    List.length_take
  refine ⟨⟨rfl, by omega, by omega, line.take _⟩, ⟨valid', ?_⟩, (List.take_append_drop _ _).symm⟩
  rw [left]
  exact line.drop _

/-- A call waits for ever only if nothing is left of a line and no newline is to come. -/
theorem handleReadline_waits (ready : Ready chBuf) (waits : handleReadline chBuf chars call = none) :
    chBuf.contents = [] ∧ enter ∉ chars := by
  rw [handleReadline] at waits
  split at waits
  · cases waits
  split at waits
  · cases waits
  split at waits
  · cases waits
  · have length := ready.valid.length
    exact ⟨List.length_eq_zero_iff.mp (by omega), not_mem_of_waits (Option.map_eq_none_iff.mp waits)⟩

/-- A call that is served gives the next characters of the edited stream. -/
theorem handleReadline_spec (ready : Ready chBuf) (fits : Fits [] chars) {r : Reply}
    (served : handleReadline chBuf chars call = some (r, chBuf', chars')) :
    Ready chBuf' ∧ Fits [] chars' ∧ (call.Proper → r.Good call) ∧
      chBuf.contents ++ edited [] chars = r.bytes ++ (chBuf'.contents ++ edited [] chars') ∧
      unfinished [] chars = unfinished [] chars' := by
  rw [handleReadline] at served
  split at served
  · rename_i refused
    cases served
    refine ⟨ready, fits, fun ⟨low, high, writable⟩ => ?_, rfl, rfl⟩
    rcases refused with negative | long | no
    · omega
    · exact absurd high (by simpa only [bufLen, gt_iff_lt, Int.not_le] using long)
    · cases writable.symm.trans no
  split at served
  · rename_i zero
    cases served
    exact ⟨ready, fits, fun proper => absurd proper.1 (by omega), rfl, rfl⟩
  rename_i accepted positive
  have low : 1 ≤ call.len := by omega
  split at served
  · rename_i leftOver
    have line : Line chBuf.contents := by
      refine ready.line.resolve_left fun none => ?_
      have length := ready.valid.length
      rw [none] at length
      exact absurd leftOver (by rw [← length]; decide)
    obtain ⟨good, ready', parts⟩ := reply_spec chars ready.valid line low
    rw [Option.some.injEq] at served
    rw [served] at good ready' parts
    obtain rfl : chars = chars' := congrArg (fun out => out.2.2) served
    exact ⟨ready', fits, fun _ => good, by rw [parts, List.append_assoc], rfl⟩
  · rename_i none
    have empty : chBuf.contents = [] := by
      have length := ready.valid.length
      exact List.length_eq_zero_iff.mp (by omega)
    rw [Option.map_eq_some_iff] at served
    obtain ⟨⟨chBuf₁, rest⟩, reads, served⟩ := served
    obtain ⟨valid, line, fits', next⟩ :=
      readLine_spec ⟨ready.valid, empty⟩ (List.not_mem_nil) fits reads
    obtain ⟨good, ready', parts⟩ := reply_spec rest valid line low
    dsimp only at served
    rw [served] at good ready' parts
    obtain rfl : rest = chars' := congrArg (fun out => out.2.2) served
    refine ⟨ready', fits', fun _ => good, ?_, readLine_unfinished reads⟩
    rw [empty, List.nil_append, next, parts, List.append_assoc]

theorem serve_spec (ready : Ready chBuf) (fits : Fits [] chars) (calls : List Call) :
    (serve chBuf chars calls).flatMap Reply.bytes <+: chBuf.contents ++ edited [] chars ∧
      (∀ p ∈ calls.zip (serve chBuf chars calls), p.1.Proper → p.2.Good p.1) ∧
      ((serve chBuf chars calls).length < calls.length →
        (serve chBuf chars calls).flatMap Reply.bytes ++ unfinished [] chars =
          chBuf.contents ++ edited [] chars) := by
  induction calls generalizing chBuf chars with
  | nil => exact ⟨List.nil_prefix, nofun, fun less => absurd less (Nat.lt_irrefl _)⟩
  | cons call calls ih =>
      rw [serve]
      cases served : handleReadline chBuf chars call with
      | none =>
          obtain ⟨empty, none⟩ := handleReadline_waits ready served
          refine ⟨List.nil_prefix, nofun, fun _ => ?_⟩
          rw [empty, edited_of_not_mem none]
          rfl
      | some out =>
          obtain ⟨r, chBuf', chars'⟩ := out
          obtain ⟨ready', fits', good, parts, same⟩ := handleReadline_spec ready fits served
          obtain ⟨rest, others, waits⟩ := ih ready' fits'
          rw [parts, List.flatMap_cons, List.zip_cons_cons]
          refine ⟨(List.prefix_append_right_inj r.bytes).mpr rest, fun p mem => ?_, fun less => ?_⟩
          · rcases List.mem_cons.mp mem with rfl | mem
            · exact good
            · exact others p mem
          · rw [List.append_assoc, same, waits (Nat.lt_of_succ_lt_succ less)]

end

/-- What the calls return, in the order of service, is a beginning of the edited stream;
each gives at least one character and at most as many as were asked for, and a newline
only as the last. A call waits for ever only if all of the stream but its unfinished line
has been returned. -/
theorem readline_stream (chars : List Byte) (fits : Fits [] chars) (calls : List Call) :
    (serve .fresh chars calls).flatMap Reply.bytes <+: edited [] chars ∧
      (∀ p ∈ calls.zip (serve .fresh chars calls), p.1.Proper → p.2.Good p.1) ∧
      ((serve .fresh chars calls).length < calls.length →
        (serve .fresh chars calls).flatMap Reply.bytes ++ unfinished [] chars = edited [] chars) :=
  serve_spec ⟨Buf.valid_fresh, .inl Buf.contents_fresh⟩ fits calls

/-- Two lines, the first with a character taken back, and the beginning of a third. -/
def keys : List Byte := [97, 98, backspace, 99, 100, enter, backspace, 101, enter, 102]

/-- Five calls, of which the last waits for the end of the third line. -/
def reads : List Call := [⟨2, true⟩, ⟨1024, true⟩, ⟨1, true⟩, ⟨9, true⟩, ⟨9, true⟩]

theorem readline_stream_keys :
    (serve .fresh keys reads).map Reply.bytes = [[97, 99], [100, enter], [101], [enter]] ∧
      (serve .fresh keys reads).flatMap Reply.bytes <+: edited [] keys ∧
      (serve .fresh keys reads).flatMap Reply.bytes ++ [102] = edited [] keys := by
  have fits : ∀ pre ∈ keys.inits, (unfinished [] pre).length ≤ 1023 := by decide
  obtain ⟨start, -, waits⟩ := readline_stream keys
    (fun pre whole => fits pre ((List.mem_inits pre keys).mpr whole)) reads
  exact ⟨by decide, start, waits (by decide)⟩

end OsKernel.Input
