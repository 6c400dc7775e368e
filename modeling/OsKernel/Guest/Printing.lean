/-
Strings on the console: backspaces that undo one, and a text of any length.

`Reached` compares a console with one it came from. A string that fits into the rest of the
screen fills the cells after the cursor, and as many backspaces empty them again; what
`backspace_iff` adds is where this ends. A text that is longer is laid out on a page without
end, of which the screen shows the rows up to that of the cursor.
-/

import Mathlib.Data.List.GetD
import Mathlib.Data.List.Induction
import OsKernel.Guest.Cells

namespace OsKernel.Guest

namespace Console

section
variable {c c' : Console} {s : List Byte} {p : Int} {pixels : Int → Pixel}

/-- `putbytes` of the bytes of a list. -/
def print (c : Console) (s : List Byte) : Console := c.putbytes (some fun i => s.getD i 0) s.length

theorem print_eq (c : Console) (s : List Byte) : c.print s = s.foldl putbyte c := by
  have bytes : (List.range s.length).map (fun i => s.getD i 0) = s := by
    refine List.ext_getElem (by simp) fun i h h' => ?_
    simp [h']
  rw [print, putbytes, Int.toNat_natCast]
  conv_rhs => rw [← bytes, List.foldl_map]

@[simp] theorem print_nil (c : Console) : c.print [] = c := rfl

theorem print_append (c : Console) (s t : List Byte) : c.print (s ++ t) = (c.print s).print t := by
  rw [print_eq, print_eq, print_eq, List.foldl_append]

theorem print_concat (c : Console) (s : List Byte) (b : Byte) :
    c.print (s ++ [b]) = (c.print s).putbyte b := by
  rw [print_eq, print_eq, List.foldl_append]
  rfl

/-- The cursor is at the cell and the memory has these pixels; the colours are as before. -/
structure Reached (c : Console) (p : Int) (pixels : Int → Pixel) (c' : Console) : Prop where
  cursor : c'.At p
  pixels : c'.pixels = pixels
  current : c'.currentColor = c.currentColor
  initial : c'.initialColor = c.initialColor

theorem Reached.blank (reached : c.Reached p pixels c') : c'.blank = c.blank := by
  rw [Console.blank, reached.initial]
  rfl

theorem Reached.moved (reached : c.Reached p pixels c') {q : Int} (on : OnScreen q)
    (pixels' : Int → Pixel) : c.Reached q pixels' (c'.moved q pixels') :=
  ⟨moved_at on, rfl, reached.current, reached.initial⟩

theorem reached_self (valid : validatePos c.row c.col = true) : c.Reached c.pos c.pixels c :=
  ⟨⟨valid, rfl⟩, rfl, rfl, rfl⟩

/-! ### Backspaces -/

/-- Backspace moves back by one cell and blanks it; on the first cell it does nothing. -/
def Erases (c c' : Console) : Prop :=
  c'.At (max 0 (c.pos - 1)) ∧
    c'.pixels = if 0 < c.pos then Function.update c.pixels (c.pos - 1) c.blank else c.pixels

/-- The pixels after a string has been printed at a cell. -/
def filled (c : Console) (s : List Byte) (q : Int) : Pixel :=
  if c.pos ≤ q ∧ q < c.pos + s.length then ⟨s.getD (q - c.pos).toNat 0, c.currentColor⟩ else c.pixels q

/-- The pixels after the cells from `p` up to `stop` have been blanked. -/
def erased (c : Console) (pixels : Int → Pixel) (p stop q : Int) : Pixel :=
  if p ≤ q ∧ q < stop then c.blank else pixels q

theorem filled_concat (c : Console) (s : List Byte) (b : Byte) :
    Function.update (c.filled s) (c.pos + s.length) ⟨b, c.currentColor⟩ = c.filled (s ++ [b]) := by
  funext q
  by_cases here : q = c.pos + s.length
  · subst here
    rw [Function.update_self, filled, if_pos (by rw [List.length_append, List.length_singleton]; omega)]
    congr 1
    rw [show (c.pos + s.length - c.pos).toNat = s.length by omega]
    simp
  · rw [Function.update_of_ne here, filled, filled]
    by_cases inside : c.pos ≤ q ∧ q < c.pos + s.length
    · rw [if_pos inside, if_pos (by simp; omega), List.getD_append _ _ _ _ (by omega)]
    · rw [if_neg inside, if_neg (by simp; omega)]

theorem erased_pred (c : Console) (pixels : Int → Pixel) {p stop : Int} (lt : p < stop) :
    Function.update (c.erased pixels (p + 1) stop) p c.blank = c.erased pixels p stop := by
  funext q
  by_cases here : q = p
  · subst here
    rw [Function.update_self, erased, if_pos ⟨Int.le_refl q, lt⟩]
  · rw [Function.update_of_ne here, erased, erased]
    congr 1
    rw [eq_iff_iff]
    omega

/-- A string that fits fills the cells from the cursor on. -/
theorem print_fits (valid : validatePos c.row c.col = true) (colour : Ascii c.currentColor)
    (plain : ∀ b ∈ s, isControl b = false ∧ Ascii b)
    (fits : c.pos + s.length < consoleHeight * consoleWidth) :
    c.Reached (c.pos + s.length) (c.filled s) (c.print s) := by
  induction s using List.reverseRecOn with
  | nil =>
      have none : c.filled [] = c.pixels := funext fun q => if_neg (by simp)
      rw [none]
      simpa using reached_self valid
  | append_singleton s b ih =>
      rw [List.length_append, List.length_singleton, Int.natCast_add, Int.natCast_one,
        ← Int.add_assoc] at fits ⊢
      have before := ih (fun b mem => plain b (List.mem_append_left _ mem)) (by omega)
      obtain ⟨notControl, ascii⟩ := plain b (by simp)
      rw [print_concat, putbyte_char before.cursor (before.current ▸ colour) ascii notControl,
        if_pos fits, before.pixels, before.current, filled_concat]
      exact before.moved ⟨by have := before.cursor.on.1; omega, fits⟩ _

/-- Backspaces, as long as there are cells before the cursor. -/
theorem backspaces_erase (reached : c.Reached p pixels c') (colour : Ascii c.currentColor) (j : Nat)
    (enough : (j : Int) ≤ p) :
    c.Reached (p - j) (c.erased pixels (p - j) p) (c'.print (List.replicate j backspace)) := by
  induction j with
  | zero =>
      have none : c.erased pixels (p - (0 : Nat)) p = pixels := funext fun q => if_neg (by omega)
      rw [none]
      simpa using reached
  | succ j ih =>
      have before := ih (by omega)
      have back : p - ((j + 1 : Nat) : Int) = p - j - 1 := by omega
      have erases := c.erased_pred pixels (show p - j - 1 < p by omega)
      rw [Int.sub_add_cancel] at erases
      have on := before.cursor.on
      rw [List.replicate_succ', print_concat,
        putbyte_backspace before.cursor (before.current ▸ colour), if_pos (by omega), before.pixels,
        before.blank, back, erases]
      exact before.moved ⟨by omega, by have := on.2; omega⟩ _

/-- Where nothing is printed, every string leaves the console as it is. -/
theorem print_refused (refused : ¬ Ascii c.currentColor) (s : List Byte) : c.print s = c := by
  induction s using List.reverseRecOn with
  | nil => rfl
  | append_singleton s b ih => rw [print_concat, ih, putbyte_refused (.inr refused)]

theorem erases_iff (valid : validatePos c.row c.col = true) :
    c.Erases (c.putbyte backspace) ↔ (0 < c.pos ↔ Ascii c.currentColor) := by
  have start : c.At c.pos := ⟨valid, rfl⟩
  have on := start.on
  by_cases colour : Ascii c.currentColor
  · rw [putbyte_backspace start colour, iff_true_right colour, Erases]
    split
    · rename_i later
      rw [Int.max_eq_right (by omega)]
      exact iff_of_true ⟨moved_at ⟨by omega, by have := on.2; omega⟩, rfl⟩ later
    · rename_i first
      refine iff_of_false (fun erases => ?_) first
      have there : consoleWidth = max 0 (c.pos - 1) :=
        (moved_at ⟨by decide, by decide⟩ : (c.moved consoleWidth c.pixels).At _).2.symm.trans erases.1.2
      simp only [consoleWidth] at there
      omega
  · rw [putbyte_refused (.inr colour), iff_false_right colour, Erases]
    constructor
    · rintro ⟨⟨-, back⟩, -⟩
      omega
    · intro first
      have low := on.1
      rw [Int.max_eq_left (by omega), if_neg first]
      exact ⟨⟨valid, by omega⟩, rfl⟩

/-- Backspaces after a string take it back cell by cell, then go on to the first cell and
stay there. -/
def Undoes (c : Console) (s : List Byte) (k : Nat) : Prop :=
  ∀ j ≤ s.length + k,
    ((c.print s).print (List.replicate j backspace)).At (max 0 (c.pos + s.length - j)) ∧
      ((c.print s).print (List.replicate j backspace)).pixels =
        c.erased (c.filled s) (max 0 (c.pos + s.length - j)) (c.pos + s.length)

theorem undoes_iff (valid : validatePos c.row c.col = true)
    (plain : ∀ b ∈ s, isControl b = false ∧ Ascii b)
    (fits : c.pos + s.length < consoleHeight * consoleWidth) (k : Nat) :
    c.Undoes s k ↔ Ascii c.currentColor ∧ (k : Int) ≤ c.pos ∨
      ¬ Ascii c.currentColor ∧ s = [] ∧ (k = 0 ∨ c.pos = 0) := by
  have low : 0 ≤ c.pos := (show c.At c.pos from ⟨valid, rfl⟩).on.1
  by_cases colour : Ascii c.currentColor
  · have printed := print_fits valid colour plain fits
    simp only [colour, true_and, not_true_eq_false, false_and, or_false]
    constructor
    · intro undoes
      by_contra more
      -- the backspace after those that have led to the first cell
      have origin := backspaces_erase printed colour (c.pos.toNat + s.length) (by omega)
      have beyond := (undoes (c.pos.toNat + s.length + 1) (by omega)).1.2
      rw [List.replicate_succ', print_concat,
        putbyte_backspace origin.cursor (origin.current ▸ colour), if_neg (by omega),
        (moved_at ⟨by decide, by decide⟩ : At _ consoleWidth).2] at beyond
      simp only [consoleWidth] at beyond
      omega
    · intro enough j le
      have back := backspaces_erase printed colour j (by omega)
      rw [Int.max_eq_right (by omega)]
      exact ⟨back.cursor, back.pixels⟩
  · simp only [colour, false_and, not_false_eq_true, true_and, false_or, Undoes,
      print_refused colour]
    constructor
    · intro undoes
      have first := (undoes 0 (Nat.zero_le _)).1.2
      have empty : s = [] := List.eq_nil_of_length_eq_zero (by omega)
      refine ⟨empty, or_iff_not_imp_left.mpr fun some => ?_⟩
      have next := (undoes 1 (by omega)).1.2
      rw [empty, List.length_nil] at next
      omega
    · rintro ⟨rfl, none⟩ j le
      simp only [List.length_nil] at le ⊢
      refine ⟨⟨valid, by omega⟩, funext fun q => ?_⟩
      rw [erased, if_neg (by omega), filled, if_neg (by simp)]

/-- Backspace moves back by one cell exactly when there is one, as long as the colour lets
anything be printed; backspaces undo a string of characters that fits on the screen, and
go on to the first cell at the most. -/
theorem backspace_iff (valid : validatePos c.row c.col = true) :
    (c.Erases (c.putbyte backspace) ↔ (0 < c.pos ↔ Ascii c.currentColor)) ∧
      ∀ (s : List Byte) (k : Nat), (∀ b ∈ s, isControl b = false ∧ Ascii b) →
        c.pos + s.length < consoleHeight * consoleWidth →
        (c.Undoes s k ↔ Ascii c.currentColor ∧ (k : Int) ≤ c.pos ∨
          ¬ Ascii c.currentColor ∧ s = [] ∧ (k = 0 ∨ c.pos = 0)) :=
  ⟨erases_iff valid, fun _ k plain fits => undoes_iff valid plain fits k⟩

theorem backspace_iff_fresh : fresh.Undoes [65, 66] 0 :=
  ((backspace_iff (c := fresh) (by decide)).2 [65, 66] 0 (by decide) (by decide)).mpr
    (.inl ⟨by decide, by decide⟩)

/-- Backspace on the first cell goes to the second row. -/
theorem backspace_forward : ¬ ∀ c : Console, validatePos c.row c.col = true →
    c.Erases (c.putbyte backspace) := by
  intro erases
  exact absurd (erases fresh (by decide)).1.2 (by decide)

end

end Console

/-! ### A page without end -/

/-- A page with rows of the width of the console, as many as the text needs. -/
structure Sheet where
  /-- The cell for the next character. -/
  pos : Int
  cells : Int → Pixel

namespace Sheet

open Console

/-- A page with nothing on it. -/
def empty (initial : Byte) : Sheet := ⟨0, fun _ => ⟨32, initial⟩⟩

/-- The next character: a newline goes to the first cell of the next row. -/
def put (color : Byte) (sheet : Sheet) (b : Byte) : Sheet :=
  if b = newline then { sheet with pos := (sheet.pos / consoleWidth + 1) * consoleWidth }
  else ⟨sheet.pos + 1, Function.update sheet.cells sheet.pos ⟨b, color⟩⟩

/-- The page with a text laid out on it. -/
def layOut (color initial : Byte) (text : List Byte) : Sheet := text.foldl (put color) (empty initial)

/-- The first row that a screen shows which ends with the row of the cursor, or has all rows. -/
def top (sheet : Sheet) : Int := max 0 (sheet.pos / consoleWidth - (consoleHeight - 1))

/-- The console shows the page from its top row on, and the cursor in its place. -/
structure ShownBy (sheet : Sheet) (c : Console) : Prop where
  row : c.row = sheet.pos / consoleWidth - sheet.top
  col : c.col = sheet.pos % consoleWidth
  cells : ∀ row col, validatePos row col = true →
    c.readPixel row col = sheet.cells ((sheet.top + row) * consoleWidth + col)

/-- The characters of a text: the printable ones, and newline. -/
def IsText (b : Byte) : Prop := b = newline ∨ 0x20 ≤ b.toNat ∧ b.toNat ≤ 0x7E

instance (b : Byte) : Decidable (IsText b) := inferInstanceAs (Decidable (_ ∨ _))

/-- Nothing has been laid out from the cursor on. -/
structure Ahead (initial : Byte) (sheet : Sheet) : Prop where
  low : 0 ≤ sheet.pos
  blank : ∀ q, sheet.pos ≤ q → sheet.cells q = ⟨32, initial⟩

theorem Ahead.put {initial color : Byte} {sheet : Sheet} (ahead : Ahead initial sheet) (b : Byte) :
    Ahead initial (sheet.put color b) := by
  obtain ⟨low, blank⟩ := ahead
  rw [Sheet.put]
  split
  · refine ⟨?_, fun q le => blank q ?_⟩ <;> simp only [consoleWidth] at * <;> omega
  · refine ⟨Int.le_add_one low, fun q le => ?_⟩
    have later : sheet.pos < q := le
    exact (Function.update_of_ne (Int.ne_of_gt later) _ _).trans (blank q (Int.le_of_lt later))

/-- The console shows the page, in the numbers of cells. -/
structure Tracks (c : Console) (sheet : Sheet) (c' : Console) : Prop where
  cursor : c'.At (sheet.pos - sheet.top * consoleWidth)
  pixels : ∀ q, OnScreen q → c'.pixels q = sheet.cells (sheet.top * consoleWidth + q)
  current : c'.currentColor = c.currentColor
  initial : c'.initialColor = c.initialColor

theorem Tracks.shownBy {c c' : Console} {sheet : Sheet} (tracks : Tracks c sheet c') :
    sheet.ShownBy c' := by
  refine ⟨?_, ?_, fun row col valid => ?_⟩
  · have row := tracks.cursor.row_eq
    simp only [consoleWidth] at *
    omega
  · have col := tracks.cursor.col_eq
    simp only [consoleWidth] at *
    omega
  · have cell := tracks.pixels _ (onScreen_of_validatePos valid)
    rw [readPixel, cell]
    congr 1
    simp only [convertToPixelIdx, consoleWidth]
    omega

section
variable {c c' : Console} {sheet : Sheet}

/-- The same cells after the cursor has moved on within the screen. -/
theorem Tracks.onward (tracks : Tracks c sheet c') {sheet' : Sheet} {p : Int} {pixels : Int → Pixel}
    (top : sheet'.top = sheet.top) (pos : sheet'.pos - sheet.top * consoleWidth = p) (on : OnScreen p)
    (cells : ∀ q, OnScreen q → pixels q = sheet'.cells (sheet.top * consoleWidth + q)) :
    Tracks c sheet' (c'.moved p pixels) :=
  ⟨by rw [top, pos]; exact moved_at on, by rw [top]; exact cells, tracks.current, tracks.initial⟩

/-- The screen has moved up by a row, and the last row is ahead of the text. -/
theorem Tracks.upward (tracks : Tracks c sheet c') {sheet' : Sheet} {pixels : Int → Pixel}
    (ahead : Ahead c.initialColor sheet') (top : sheet'.top = sheet.top + 1)
    (pos : sheet'.pos = (sheet.top + consoleHeight) * consoleWidth)
    (cells : ∀ q, OnScreen q → pixels q = sheet'.cells (sheet.top * consoleWidth + q)) :
    Tracks c sheet' (c'.moved ((consoleHeight - 1) * consoleWidth)
      (scrolled pixels 1 c'.initialColor)) := by
  refine ⟨?_, fun q inside => ?_, tracks.current, tracks.initial⟩
  · have last : sheet'.pos - sheet'.top * consoleWidth = (consoleHeight - 1) * consoleWidth := by
      rw [top, pos]
      simp only [consoleHeight, consoleWidth]
      omega
    rw [last]
    exact moved_at ⟨by decide, by decide⟩
  · rw [moved_pixels, scrolled_one _ _ inside, top]
    obtain ⟨low, high⟩ := inside
    split
    · rename_i above
      rw [cells _ ⟨by simp only [consoleWidth]; omega, by simp only [consoleHeight, consoleWidth] at *; omega⟩]
      congr 1
      simp only [consoleWidth]
      omega
    · rename_i below
      rw [ahead.blank _ (by rw [pos]; simp only [consoleHeight, consoleWidth] at *; omega),
        tracks.initial]

/-- One more character of the text. -/
theorem Tracks.putbyte (tracks : Tracks c sheet c') (ahead : Ahead c.initialColor sheet)
    (colour : Ascii c.currentColor) {b : Byte} (text : IsText b) :
    Tracks c (sheet.put c.currentColor b) (c'.putbyte b) := by
  have next : Ahead c.initialColor (sheet.put c.currentColor b) := ahead.put b
  have low := ahead.low
  have on := tracks.cursor.on
  have colour' : Ascii c'.currentColor := tracks.current ▸ colour
  have here : sheet.top = max 0 (sheet.pos / 80 - 24) := rfl
  by_cases line : b = newline
  · subst line
    have put : sheet.put c.currentColor newline =
        { sheet with pos := (sheet.pos / consoleWidth + 1) * consoleWidth } := if_pos rfl
    rw [put] at next ⊢
    have there : top { sheet with pos := (sheet.pos / consoleWidth + 1) * consoleWidth } =
        max 0 ((sheet.pos / 80 + 1) * 80 / 80 - 24) := rfl
    rw [putbyte_newline tracks.cursor colour']
    simp only [OnScreen, consoleHeight, consoleWidth] at on
    split
    · rename_i room
      simp only [consoleHeight, consoleWidth] at room
      exact tracks.onward (by omega) (by simp only [consoleWidth]; omega)
        ⟨by simp only [consoleWidth]; omega, by simp only [consoleHeight, consoleWidth]; omega⟩
        tracks.pixels
    · rename_i full
      simp only [consoleHeight, consoleWidth] at full
      exact tracks.upward next (by omega) (by simp only [consoleHeight, consoleWidth]; omega)
        tracks.pixels
  · have ascii : Ascii b := by
      rw [Ascii]
      have range := text.resolve_left line
      omega
    have plain : isControl b = false := by
      have range := text.resolve_left line
      have other : ∀ d : Byte, d.toNat < 0x20 → b ≠ d := by
        rintro d small rfl
        omega
      simp only [isControl, Bool.or_eq_false_iff, decide_eq_false_iff_not]
      exact ⟨⟨other _ (by decide), other _ (by decide)⟩, other _ (by decide)⟩
    have put : sheet.put c.currentColor b =
        ⟨sheet.pos + 1, Function.update sheet.cells sheet.pos ⟨b, c.currentColor⟩⟩ := if_neg line
    rw [put] at next ⊢
    have there : top ⟨sheet.pos + 1, Function.update sheet.cells sheet.pos ⟨b, c.currentColor⟩⟩ =
        max 0 ((sheet.pos + 1) / 80 - 24) := rfl
    have cells : ∀ q, OnScreen q →
        Function.update c'.pixels (sheet.pos - sheet.top * consoleWidth) ⟨b, c'.currentColor⟩ q =
          Function.update sheet.cells sheet.pos ⟨b, c.currentColor⟩ (sheet.top * consoleWidth + q) := by
      intro q inside
      by_cases here : q = sheet.pos - sheet.top * consoleWidth
      · rw [here, Function.update_self, tracks.current,
          show sheet.top * consoleWidth + (sheet.pos - sheet.top * consoleWidth) = sheet.pos by omega,
          Function.update_self]
      · rw [Function.update_of_ne here, Function.update_of_ne (by omega)]
        exact tracks.pixels q inside
    rw [putbyte_char tracks.cursor colour' ascii plain]
    simp only [OnScreen, consoleHeight, consoleWidth] at on
    split
    · rename_i room
      simp only [consoleHeight, consoleWidth] at room
      exact tracks.onward (by omega) (by simp only [consoleWidth]; omega)
        ⟨by simp only [consoleWidth]; omega, by simp only [consoleHeight, consoleWidth]; omega⟩ cells
    · rename_i full
      simp only [consoleHeight, consoleWidth] at full
      exact tracks.upward next (by omega) (by simp only [consoleHeight, consoleWidth]; omega) cells

theorem tracks_print (tracks : Tracks c sheet c') (ahead : Ahead c.initialColor sheet)
    (colour : Ascii c.currentColor) {text : List Byte} (isText : ∀ b ∈ text, IsText b) :
    Tracks c (text.foldl (put c.currentColor) sheet) (c'.print text) := by
  rw [print_eq]
  induction text generalizing sheet c' with
  | nil => exact tracks
  | cons b text ih =>
      obtain ⟨first, rest⟩ := List.forall_mem_cons.mp isText
      exact ih (tracks.putbyte ahead colour first) (ahead.put b) rest

end

/-- An empty page is what `clear_console` leaves. -/
theorem tracks_clear (c : Console) : Tracks c (empty c.initialColor) c.clearConsole := by
  rw [clearConsole, scrollUp_eq c (by decide) (Int.le_refl _)]
  refine ⟨⟨rfl, rfl⟩, fun q inside => ?_, rfl, rfl⟩
  exact blanked_in (show (consoleHeight - consoleHeight) * consoleWidth ≤ q by
    rw [Int.sub_self, Int.zero_mul]; exact inside.1) inside.2

/-- A text of any length, printed on a cleared console in one or several calls of
`putbytes`, is shown as the page it is laid out on, up to the row of the cursor. -/
theorem print_shows (c : Console) (colour : Ascii c.currentColor) (parts : List (List Byte))
    (isText : ∀ b ∈ parts.flatten, IsText b) :
    (layOut c.currentColor c.initialColor parts.flatten).ShownBy (parts.foldl print c.clearConsole) ∧
      parts.foldl print c.clearConsole = c.clearConsole.print parts.flatten := by
  have joined : ∀ c : Console, parts.foldl print c = c.print parts.flatten := by
    clear isText
    induction parts with
    | nil => exact fun _ => rfl
    | cons s parts ih =>
        intro c
        rw [List.flatten_cons, print_append, List.foldl_cons, ih]
  have ahead : Ahead c.initialColor (empty c.initialColor) := ⟨Int.le_refl 0, fun _ _ => rfl⟩
  rw [joined]
  exact ⟨(tracks_print (tracks_clear c) ahead colour isText).shownBy, rfl⟩

theorem print_shows_lines : (layOut 7 7 [65, newline, 66]).ShownBy
    ([[65], [newline, 66]].foldl print fresh.clearConsole) :=
  (print_shows fresh (by decide) [[65], [newline, 66]] (by decide)).1

end Sheet

end OsKernel.Guest
