/-
The echo of `readline` and the line it builds (`handle_readline` of `kern/system_call.c`).

Each character goes to the console first and to `ch_buf` after that, whatever becomes of it
there. `Echoes` says that the screen shows the buffer from where the cursor was when the
call began; `InStep` is the condition on a character that the two treat alike, and by
`echo_iff` they agree after every character exactly when each of them meets it.
-/

import OsKernel.Guest.Printing
import OsKernel.Input.Readline

namespace OsKernel.Input

open Guest.Console (OnScreen)
open Guest (Console Ascii carriageReturn consoleHeight consoleWidth)
open Run

/-- A character of the line: it is echoed, and goes to `ch_buf`. -/
def echo (s : Console × Buf) (ch : Byte) : Console × Buf := (s.1.putbyte ch, (edit s.2 ch).1)

/-- From the cell where the cursor was up to the cursor the screen shows what the buffer
holds, and before that cell nothing has changed. -/
structure Echoes (start : Console) (s : Console × Buf) : Prop where
  cursor : s.1.At (start.pos + s.2.contents.length)
  line : ∀ i : Nat, (lt : i < s.2.contents.length) → (s.1.pixels (start.pos + i)).ch = s.2.contents[i]
  before : ∀ q, OnScreen q → q < start.pos → s.1.pixels q = start.pixels q

/-- The console and the buffer treat the character alike: a backspace that is shown finds a
character to take back; another character is shown when there is room for it, and when there
is none it leaves the cursor where it is. -/
def InStep (start : Console) (s : Console × Buf) (ch : Byte) : Prop :=
  if ch = backspace then s.2.contents ≠ [] ↔ Ascii start.currentColor
  else if s.2.contents.length = 1024 then
    ¬ (Ascii ch ∧ Ascii start.currentColor) ∨
      ch = carriageReturn ∧ (start.pos + 1024) % consoleWidth = 0
  else Ascii ch ∧ Ascii start.currentColor ∧ ch ≠ carriageReturn

instance (start : Console) (s : Console × Buf) (ch : Byte) : Decidable (InStep start s ch) := by
  unfold InStep
  infer_instance

section
variable {start : Console} {c : Console} {chBuf : Buf} {ch : Byte}

theorem echo_pair (c : Console) (chBuf : Buf) (ch : Byte) :
    echo (c, chBuf) ch = (c.putbyte ch, (edit chBuf ch).1) := rfl

/-! ### The buffer -/

theorem edit_backspace (valid : chBuf.Valid) :
    Holds (edit chBuf backspace).1 chBuf.contents.dropLast :=
  Holds.popTail ⟨valid, rfl⟩

theorem edit_full (valid : chBuf.Valid) (full : chBuf.contents.length = 1024) (other : ch ≠ backspace) :
    (edit chBuf ch).1 = chBuf := by
  rw [edit, if_neg other, valid.pushTail_full full]
  split <;> rfl

theorem edit_char (valid : chBuf.Valid) (room : chBuf.contents.length ≠ 1024)
    (other : ch ≠ backspace) : Holds (edit chBuf ch).1 (chBuf.contents ++ [ch]) := by
  have le := valid.length_le
  have held : Holds chBuf chBuf.contents := ⟨valid, rfl⟩
  have pushed := held.pushTail (by omega) ch
  rw [edit, if_neg other]
  split <;> exact pushed

/-! ### One character -/

/-- Nothing is echoed. -/
theorem echoes_refused_iff (echoes : Echoes start (c, chBuf)) {chBuf' : Buf}
    (same : chBuf'.contents.length = chBuf.contents.length → chBuf'.contents = chBuf.contents) :
    Echoes start (c, chBuf') ↔ chBuf'.contents.length = chBuf.contents.length := by
  constructor
  · intro after
    have here : c.pos = start.pos + chBuf'.contents.length := after.cursor.2
    have there : c.pos = start.pos + chBuf.contents.length := echoes.cursor.2
    omega
  · intro length
    have whole := same length
    refine ⟨?_, ?_, echoes.before⟩
    · show c.At (start.pos + chBuf'.contents.length)
      rw [length]
      exact echoes.cursor
    · show ∀ i : Nat, (lt : i < chBuf'.contents.length) → _ = chBuf'.contents[i]
      rw [whole]
      exact echoes.line

/-- A backspace that is shown. -/
theorem echoes_backspace_iff (valid : chBuf.Valid) (echoes : Echoes start (c, chBuf))
    (on : OnScreen start.pos) (colour : Ascii c.currentColor) :
    Echoes start (echo (c, chBuf) backspace) ↔ chBuf.contents ≠ [] := by
  have held := edit_backspace valid
  have low := on.1
  have cursor : c.At (start.pos + chBuf.contents.length) := echoes.cursor
  have shown : c.putbyte backspace = _ := Console.putbyte_backspace cursor colour
  constructor
  · rintro after empty
    have here : (c.putbyte backspace).pos = start.pos + (edit chBuf backspace).1.contents.length :=
      after.cursor.2
    rw [held.contents, empty, List.dropLast_nil, List.length_nil, shown, empty, List.length_nil] at here
    split at here
    · rename_i later
      rw [(Console.moved_at ⟨by omega, by have := on.2; omega⟩).2] at here
      omega
    · rw [(Console.moved_at ⟨by decide, by decide⟩).2] at here
      simp only [consoleWidth] at here
      omega
  · intro some
    have pos := List.length_pos_iff.mpr some
    have high := cursor.on.2
    rw [echo, shown, if_pos (by omega)]
    refine ⟨?_, fun i lt => ?_, fun q inside lt => ?_⟩
    · have back : start.pos + ((edit chBuf backspace).1.contents.length : Int) =
          start.pos + chBuf.contents.length - 1 := by
        rw [held.contents, List.length_dropLast]
        omega
      show Console.At _ (start.pos + ((edit chBuf backspace).1.contents.length : Int))
      rw [back]
      exact Console.moved_at ⟨by omega, by omega⟩
    · have lt' : i < chBuf.contents.length - 1 := by
        simpa [held.contents] using lt
      simp only [held.contents, List.getElem_dropLast, Console.moved_pixels]
      rw [Function.update_of_ne (by omega)]
      exact echoes.line i (show i < chBuf.contents.length by omega)
    · exact (Function.update_of_ne (by omega) _ _).trans (echoes.before q inside lt)

/-- A character that is shown, with room in the buffer. -/
theorem echoes_char (valid : chBuf.Valid) (echoes : Echoes start (c, chBuf)) (low : 0 ≤ start.pos)
    (colour : Ascii c.currentColor) (ascii : Ascii ch) (plain : Guest.isControl ch = false)
    (room : chBuf.contents.length ≠ 1024)
    (fits : start.pos + chBuf.contents.length + 1 < consoleHeight * consoleWidth) :
    Echoes start (echo (c, chBuf) ch) := by
  have other : ch ≠ backspace := by
    rintro rfl
    cases plain
  have held := edit_char valid room other
  have cursor : c.At (start.pos + chBuf.contents.length) := echoes.cursor
  have shown : c.putbyte ch = _ := Console.putbyte_char cursor colour ascii plain
  rw [echo, shown, if_pos fits]
  refine ⟨?_, fun i lt => ?_, fun q inside lt => ?_⟩
  · have next : start.pos + ((edit chBuf ch).1.contents.length : Int) =
        start.pos + chBuf.contents.length + 1 := by
      rw [held.contents, List.length_append, List.length_singleton]
      omega
    show Console.At _ (start.pos + ((edit chBuf ch).1.contents.length : Int))
    rw [next]
    exact Console.moved_at ⟨by omega, fits⟩
  · have lt' : i < chBuf.contents.length + 1 := by
      simpa [held.contents] using lt
    simp only [held.contents, Console.moved_pixels]
    by_cases last : i = chBuf.contents.length
    · subst last
      rw [Function.update_self, List.getElem_concat_length rfl]
    · have before : i < chBuf.contents.length := by omega
      rw [Function.update_of_ne (by omega), List.getElem_append_left before]
      exact echoes.line i before
  · exact (Function.update_of_ne (by omega) _ _).trans (echoes.before q inside lt)

/-- A carriage return goes to the first column. -/
theorem echoes_return_iff (echoes : Echoes start (c, chBuf)) (colour : Ascii c.currentColor)
    {chBuf' : Buf} (grows : chBuf.contents.length ≤ chBuf'.contents.length)
    (same : chBuf'.contents.length = chBuf.contents.length → chBuf'.contents = chBuf.contents) :
    Echoes start (c.putbyte carriageReturn, chBuf') ↔
      chBuf'.contents.length = chBuf.contents.length ∧
        (start.pos + chBuf.contents.length) % consoleWidth = 0 := by
  have cursor : c.At (start.pos + chBuf.contents.length) := echoes.cursor
  have on := cursor.on
  have shown := Console.putbyte_carriageReturn cursor colour
  have column : OnScreen ((start.pos + chBuf.contents.length) / consoleWidth * consoleWidth) := by
    simp only [OnScreen, consoleHeight, consoleWidth] at *
    omega
  rw [shown]
  constructor
  · intro after
    have here : _ = start.pos + (chBuf'.contents.length : Int) := after.cursor.2
    rw [(Console.moved_at column).2] at here
    simp only [consoleWidth] at *
    omega
  · rintro ⟨length, first⟩
    refine (echoes_refused_iff (c := c.moved _ c.pixels) ⟨?_, echoes.line, echoes.before⟩ same).mpr length
    have here : (start.pos + (chBuf.contents.length : Int)) / consoleWidth * consoleWidth =
        start.pos + chBuf.contents.length := by
      simp only [consoleWidth] at *
      omega
    show Console.At _ (start.pos + (chBuf.contents.length : Int))
    rw [here]
    exact Console.moved_at on

/-- What the agreement of the two is based on. -/
structure Typing (start : Console) (line : List Byte) (s : Console × Buf) : Prop where
  echoes : Echoes start s
  valid : s.2.Valid
  current : s.1.currentColor = start.currentColor
  length : s.2.contents.length ≤ line.length

/-- After a character the two agree exactly when it is in step. -/
theorem echoes_echo_iff {line : List Byte} {s : Console × Buf} (typing : Typing start line s)
    (on : OnScreen start.pos) (notEnter : ch ≠ enter)
    (fits : start.pos + (typed line ch).length < consoleHeight * consoleWidth) :
    Echoes start (echo s ch) ↔ InStep start s ch := by
  obtain ⟨c, chBuf⟩ := s
  obtain ⟨echoes, valid, current, length⟩ := typing
  have current : c.currentColor = start.currentColor := current
  have length : chBuf.contents.length ≤ line.length := length
  rw [InStep, ← current]
  by_cases back : ch = backspace
  · subst back
    rw [if_pos rfl]
    by_cases colour : Ascii c.currentColor
    · rw [iff_true_right colour]
      exact echoes_backspace_iff valid echoes on colour
    · have held := edit_backspace valid
      have same : chBuf.contents.dropLast.length = chBuf.contents.length → chBuf.contents = [] := by
        rw [List.length_dropLast]
        exact fun length => List.eq_nil_of_length_eq_zero (by omega)
      rw [iff_false_right colour, not_not, echo_pair, Console.putbyte_refused (.inr colour),
        echoes_refused_iff echoes (fun length => ?_), held.contents]
      · exact ⟨same, fun none => by rw [none]; rfl⟩
      · rw [held.contents] at length ⊢
        rw [same length]
        rfl
  rw [if_neg back]
  rw [typed, if_neg back, List.length_append, List.length_singleton] at fits
  have plain : ch ≠ carriageReturn → Guest.isControl ch = false := fun notReturn => by
    simp only [Guest.isControl, Bool.or_eq_false_iff, decide_eq_false_iff_not]
    exact ⟨⟨back, notEnter⟩, notReturn⟩
  by_cases full : chBuf.contents.length = 1024
  · -- the buffer stays as it is
    rw [if_pos full, echo_pair, edit_full valid full back]
    by_cases shown : Ascii ch ∧ Ascii c.currentColor
    · rw [or_iff_right (not_not.mpr shown)]
      by_cases isReturn : ch = carriageReturn
      · subst isReturn
        rw [echoes_return_iff echoes shown.2 (Nat.le_refl _) fun _ => rfl, full]
        exact and_congr_left' (iff_of_true rfl rfl)
      · refine iff_of_false (fun after => ?_) fun h => isReturn h.1
        have cursor : c.At (start.pos + chBuf.contents.length) := echoes.cursor
        have here : (c.putbyte ch).pos = start.pos + chBuf.contents.length := after.cursor.2
        have room : start.pos + chBuf.contents.length + 1 < consoleHeight * consoleWidth := by omega
        have low := on.1
        rw [Console.putbyte_char cursor shown.2 shown.1 (plain isReturn), if_pos room,
          (Console.moved_at ⟨by omega, room⟩).2] at here
        omega
    · rw [Console.putbyte_refused (not_and_or.mp shown)]
      exact iff_of_true echoes (.inl shown)
  · -- the buffer grows
    have held := edit_char valid full back
    have grows : (edit chBuf ch).1.contents.length = chBuf.contents.length + 1 := by
      rw [held.contents, List.length_append, List.length_singleton]
    rw [if_neg full]
    by_cases shown : Ascii ch ∧ Ascii c.currentColor
    · by_cases isReturn : ch = carriageReturn
      · subst isReturn
        rw [echo_pair, echoes_return_iff echoes shown.2 (by omega) (by omega)]
        exact iff_of_false (fun h => by omega) fun h => h.2.2 rfl
      · exact iff_of_true (echoes_char valid echoes on.1 shown.2 shown.1 (plain isReturn) full
          (by omega)) ⟨shown.1, shown.2, isReturn⟩
    · rw [echo_pair, Console.putbyte_refused (not_and_or.mp shown), echoes_refused_iff echoes (by omega)]
      exact iff_of_false (by omega) fun h => shown ⟨h.1, h.2.1⟩

theorem Typing.next {line : List Byte} {s : Console × Buf} (typing : Typing start line s)
    (after : Echoes start (echo s ch)) : Typing start (typed line ch) (echo s ch) := by
  obtain ⟨c, chBuf⟩ := s
  obtain ⟨echoes, valid, current, length⟩ := typing
  have length : chBuf.contents.length ≤ line.length := length
  have colour := (Console.keeps_putbyte echoes.cursor.1 ch).current.trans current
  refine ⟨after, ?_, colour, ?_⟩
  · show (edit chBuf ch).1.Valid
    by_cases back : ch = backspace
    · exact back ▸ (edit_backspace valid).valid
    · by_cases full : chBuf.contents.length = 1024
      · rw [edit_full valid full back]
        exact valid
      · exact (edit_char valid full back).valid
  · show (edit chBuf ch).1.contents.length ≤ (typed line ch).length
    rw [typed]
    split
    · rename_i back
      rw [back, (edit_backspace valid).contents, List.length_dropLast, List.length_dropLast]
      omega
    · rename_i back
      rw [List.length_append, List.length_singleton]
      by_cases full : chBuf.contents.length = 1024
      · rw [edit_full valid full back]
        omega
      · rw [(edit_char valid full back).contents, List.length_append, List.length_singleton]
        omega

theorem along_echoes_iff {line chars : List Byte} {s : Console × Buf} (typing : Typing start line s)
    (on : OnScreen start.pos) (noEnter : enter ∉ chars)
    (fits : ∀ pre, pre <+: chars →
      start.pos + (unfinished line pre).length < consoleHeight * consoleWidth) :
    Along echo (Echoes start) s chars ↔ StepsMeet echo (InStep start) s chars := by
  induction chars generalizing line s with
  | nil => exact iff_of_true typing.echoes trivial
  | cons ch chars ih =>
      obtain ⟨notEnter, others⟩ := List.ne_and_not_mem_of_not_mem_cons noEnter
      have one := echoes_echo_iff typing on notEnter.symm (by
        have here := fits [ch] (List.prefix_append [ch] chars)
        rwa [unfinished, List.foldl_cons, List.foldl_nil, if_neg notEnter.symm] at here)
      have rest : ∀ pre, pre <+: chars →
          start.pos + (unfinished (typed line ch) pre).length < consoleHeight * consoleWidth := by
        intro pre whole
        have here := fits (ch :: pre) ((List.prefix_cons_inj ch).mpr whole)
        rwa [unfinished, List.foldl_cons, if_neg notEnter.symm] at here
      rw [Along, StepsMeet, and_iff_right typing.echoes]
      constructor
      · intro along
        exact ⟨one.mp along.head, (ih (typing.next along.head) others rest).mp along⟩
      · rintro ⟨inStep, meet⟩
        exact (ih (typing.next (one.mpr inStep)) others rest).mpr meet

/-- While a line is typed that stays on the screen, the echo agrees with `ch_buf` after every
character exactly when each of them is in step. -/
theorem echo_iff (valid : Console.validatePos start.row start.col = true) (waiting : Holds chBuf [])
    {chars : List Byte} (noEnter : enter ∉ chars) (fits : ∀ pre, pre <+: chars →
      start.pos + (unfinished [] pre).length < consoleHeight * consoleWidth) :
    Along echo (Echoes start) (start, chBuf) chars ↔
      StepsMeet echo (InStep start) (start, chBuf) chars := by
  have none : chBuf.contents = [] := waiting.contents
  have cursor : start.At start.pos := ⟨valid, rfl⟩
  have echoes : Echoes start (start, chBuf) := by
    refine ⟨?_, fun i lt => ?_, fun _ _ _ => rfl⟩
    · show start.At (start.pos + (chBuf.contents.length : Int))
      rwa [none, List.length_nil, Int.natCast_zero, Int.add_zero]
    · have lt : i < chBuf.contents.length := lt
      rw [none] at lt
      exact absurd lt (Nat.not_lt_zero i)
  have short : chBuf.contents.length ≤ ([] : List Byte).length := by rw [none]
  exact along_echoes_iff ⟨echoes, waiting.valid, rfl, short⟩ cursor.on noEnter fits

theorem echo_iff_line : Along echo (Echoes .fresh) (.fresh, .fresh) [97, backspace, 98] := by
  have inits : ∀ pre ∈ [97, backspace, 98].inits,
      Console.fresh.pos + (unfinished [] pre).length < consoleHeight * consoleWidth := by decide
  refine (echo_iff (by decide) ⟨Buf.valid_fresh, rfl⟩ (by decide)
    fun pre whole => inits pre ((List.mem_inits pre _).mpr whole)).mpr ?_
  decide

/-- A backspace on an empty line takes back what stands before it on the screen. -/
theorem prompt_erased : ¬ ∀ (start : Console) (chars : List Byte),
    Console.validatePos start.row start.col = true → enter ∉ chars →
    (∀ pre, pre <+: chars →
      start.pos + (unfinished [] pre).length < consoleHeight * consoleWidth) →
    Along echo (Echoes start) (start, .fresh) chars := by
  intro agrees
  have prompt := agrees (Console.fresh.putbyte 62) [backspace] (by decide) (by decide) (by
    have inits : ∀ pre ∈ [backspace].inits,
      (Console.fresh.putbyte 62).pos + (unfinished [] pre).length < consoleHeight * consoleWidth := by
        decide
    exact fun pre whole => inits pre ((List.mem_inits pre _).mpr whole))
  exact absurd (prompt.2.head.before 0 (by decide) (by decide)) (by decide)

end

end OsKernel.Input
