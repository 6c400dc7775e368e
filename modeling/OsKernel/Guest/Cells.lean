/-
Printing one byte, on the screen as a sequence of cells.

The cell at a row and a column has its pixel index as its number, and the cursor stands at
a number. `moved` is the console after the cursor has gone to another number; one lemma for
each kind of byte says what `putbyte` does in these terms. `shown_iff` and `backspace_iff`
are about what the driver does not take: `draw_char` gets a byte or a colour above `0x7F`
as a negative `int`, and backspace on the first cell is not undone by truncating division.
-/

import OsKernel.Guest.Screen

namespace OsKernel.Guest

/-- The bytes that `draw_char` treats on their own. -/
def backspace : Byte := 8
def newline : Byte := 10
def carriageReturn : Byte := 13

def isControl (b : Byte) : Bool := b = backspace || b = newline || b = carriageReturn

/-- A byte that stays what it is when a `char` is extended to an `int`. -/
def Ascii (b : Byte) : Prop := b.toNat < 128

instance (b : Byte) : Decidable (Ascii b) := inferInstanceAs (Decidable (_ < _))

namespace Console

open Run

/-! ### Cells -/

/-- The number of the cell at the cursor. -/
def pos (c : Console) : Int := convertToPixelIdx c.row c.col

/-- The cursor stands on the screen, at this cell. -/
def At (c : Console) (p : Int) : Prop := validatePos c.row c.col = true ∧ c.pos = p

/-- The console with the cursor at another cell, and other pixels. -/
def moved (c : Console) (p : Int) (pixels : Int → Pixel) : Console :=
  { c with row := p / consoleWidth, col := p % consoleWidth, pixels := pixels }.placeCursor

/-- A blank of the initial colour. -/
def blank (c : Console) : Pixel := ⟨32, c.initialColor⟩

section
variable {c : Console} {p : Int} {pixels : Int → Pixel}

@[simp] theorem moved_pixels : (c.moved p pixels).pixels = pixels := rfl
@[simp] theorem moved_currentColor : (c.moved p pixels).currentColor = c.currentColor := rfl
@[simp] theorem moved_initialColor : (c.moved p pixels).initialColor = c.initialColor := rfl
@[simp] theorem moved_blank : (c.moved p pixels).blank = c.blank := rfl

theorem moved_at (on : OnScreen p) : (c.moved p pixels).At p := by
  refine ⟨validatePos_iff.mpr ?_, ?_⟩
  · simp only [OnScreen, moved, placeCursor, consoleHeight, consoleWidth] at *
    omega
  · simp only [pos, moved, placeCursor, convertToPixelIdx, consoleWidth]
    omega

/-- A row and a column, as one cell. -/
theorem moved_of_valid {row col : Int} (valid : validatePos row col = true) :
    { c with row := row, col := col, pixels := pixels }.placeCursor =
      c.moved (convertToPixelIdx row col) pixels := by
  obtain ⟨-, -, left, right⟩ := validatePos_iff.mp valid
  have sameRow : convertToPixelIdx row col / consoleWidth = row := by
    simp only [convertToPixelIdx, consoleWidth] at *
    omega
  have sameCol : convertToPixelIdx row col % consoleWidth = col := by
    simp only [convertToPixelIdx, consoleWidth] at *
    omega
  rw [moved, sameRow, sameCol]

theorem At.on (at_ : c.At p) : OnScreen p := at_.2 ▸ onScreen_of_validatePos at_.1

theorem At.row_eq (at_ : c.At p) : c.row = p / consoleWidth := by
  obtain ⟨valid, rfl⟩ := at_
  obtain ⟨-, -, left, right⟩ := validatePos_iff.mp valid
  simp only [pos, convertToPixelIdx, consoleWidth] at *
  omega

theorem At.col_eq (at_ : c.At p) : c.col = p % consoleWidth := by
  obtain ⟨valid, rfl⟩ := at_
  obtain ⟨-, -, left, right⟩ := validatePos_iff.mp valid
  simp only [pos, convertToPixelIdx, consoleWidth] at *
  omega

/-- The screen moved up by a row, cell by cell. -/
theorem scrolled_one (pixels : Int → Pixel) (fillColor : Byte) (on : OnScreen p) :
    scrolled pixels 1 fillColor p =
      if p < (consoleHeight - 1) * consoleWidth then pixels (p + consoleWidth) else ⟨32, fillColor⟩ := by
  obtain ⟨low, high⟩ := on
  rw [scrolled]
  split
  · rename_i above
    rw [blanked_out (.inl above), movedUp_in low above, Int.one_mul]
  · rename_i last
    exact blanked_in (Int.not_lt.mp last) high

end

/-! ### One byte -/

theorem isUnsignedChar_toInt (b : Byte) : isUnsignedChar b.toInt = decide (Ascii b) := by
  have lt := b.isLt
  refine decide_eq_decide.mpr ?_
  rw [show Ascii b ↔ b.toNat < 128 from Iff.rfl, BitVec.toNat_ofInt, BitVec.toInt_eq_toNat_cond]
  split <;> omega

section
variable {c : Console} {b : Byte}

/-- What `draw_char` takes for no character or no colour. -/
theorem putbyte_refused (refused : ¬ Ascii b ∨ ¬ Ascii c.currentColor) : c.putbyte b = c := by
  rw [putbyte, drawChar, isUnsignedChar_toInt, isUnsignedChar_toInt, if_pos]
  simp only [decide_eq_false_iff_not]
  exact .inr refused

variable {p : Int} (start : c.At p) (colour : Ascii c.currentColor)
include start colour

/-- `putbyte` past the checks of `draw_char`. -/
theorem accepted (ascii : Ascii b) : ¬ (validatePos c.row c.col = false ∨
    isUnsignedChar b.toInt = false ∨ isUnsignedChar c.currentColor.toInt = false) := by
  simp only [isUnsignedChar_toInt, decide_eq_false_iff_not, start.1, not_or, not_not]
  exact ⟨Bool.noConfusion, ascii, colour⟩

theorem putbyte_newline : c.putbyte newline =
    if p / consoleWidth + 1 < consoleHeight then c.moved ((p / consoleWidth + 1) * consoleWidth) c.pixels
    else c.moved ((consoleHeight - 1) * consoleWidth) (scrolled c.pixels 1 c.initialColor) := by
  obtain ⟨low, high, -⟩ := validatePos_iff.mp start.1
  rw [putbyte, drawChar, if_neg (accepted start colour (by decide)), if_pos (by decide), ← start.row_eq]
  by_cases below : c.row + 1 < consoleHeight
  · have valid : validatePos (c.row + 1) 0 = true :=
      validatePos_iff.mpr ⟨by omega, below, Int.le_refl 0, by decide⟩
    rw [if_pos valid, if_pos below, moved_of_valid valid, convertToPixelIdx, Int.add_zero]
  · have last : c.row = consoleHeight - 1 := by omega
    have out : ¬ validatePos (c.row + 1) 0 = true := by
      rw [validatePos_iff]
      omega
    rw [if_neg out, if_neg below, scrollUp_eq _ (by decide) (by decide), last]
    exact moved_of_valid (show validatePos (consoleHeight - 1) 0 = true by decide)

theorem putbyte_carriageReturn :
    c.putbyte carriageReturn = c.moved (p / consoleWidth * consoleWidth) c.pixels := by
  obtain ⟨low, high, -⟩ := validatePos_iff.mp start.1
  have valid : validatePos c.row 0 = true := validatePos_iff.mpr ⟨low, high, Int.le_refl 0, by decide⟩
  rw [putbyte, drawChar, if_neg (accepted start colour (by decide)), if_neg (by decide),
    if_pos (by decide), moved_of_valid valid, start.row_eq, convertToPixelIdx, Int.add_zero]

/-- The cell before the cursor is blanked; from the first cell the cursor goes to the
second row. -/
theorem putbyte_backspace : c.putbyte backspace =
    if 0 < p then c.moved (p - 1) (Function.update c.pixels (p - 1) c.blank)
    else c.moved consoleWidth c.pixels := by
  rw [putbyte, drawChar, if_neg (accepted start colour (by decide)), if_neg (by decide),
    if_neg (by decide), if_pos (by decide), ← pos, start.2]
  obtain ⟨low, high⟩ := start.on
  by_cases back : 0 < p
  · have before : 0 ≤ p - 1 := by omega
    have valid : validatePos ((p - 1) / consoleWidth) ((p - 1) % consoleWidth) = true := by
      simp only [validatePos_iff, consoleHeight, consoleWidth] at *
      omega
    have same : convertToPixelIdx ((p - 1) / consoleWidth) ((p - 1) % consoleWidth) = p - 1 := by
      simp only [convertToPixelIdx, consoleWidth]
      omega
    rw [convertToPos_of_nonneg before, if_pos back]
    dsimp only
    rw [if_pos valid, writePixel, same]
    rfl
  · have first : p = 0 := by omega
    subst first
    rfl

/-- Any other character is stored in the cell at the cursor. -/
theorem putbyte_char (ascii : Ascii b) (plain : isControl b = false) : c.putbyte b =
    if p + 1 < consoleHeight * consoleWidth then
      c.moved (p + 1) (Function.update c.pixels p ⟨b, c.currentColor⟩)
    else c.moved ((consoleHeight - 1) * consoleWidth)
      (scrolled (Function.update c.pixels p ⟨b, c.currentColor⟩) 1 c.initialColor) := by
  have lt : b.toInt = b.toNat := BitVec.toInt_eq_toNat_of_lt (by rw [Ascii] at ascii; omega)
  have other : ∀ d : Byte, b ≠ d → b.toInt ≠ (d.toNat : Int) := fun d ne same =>
    ne (BitVec.eq_of_toNat_eq (by rw [lt] at same; omega))
  simp only [isControl, Bool.or_eq_false_iff, decide_eq_false_iff_not] at plain
  obtain ⟨⟨notBack, notLine⟩, notReturn⟩ := plain
  obtain ⟨low, high⟩ := start.on
  rw [putbyte, drawChar, if_neg (accepted start colour ascii),
    if_neg (show b.toInt ≠ 10 from other newline notLine),
    if_neg (show b.toInt ≠ 13 from other carriageReturn notReturn),
    if_neg (show b.toInt ≠ 8 from other backspace notBack), BitVec.ofInt_toInt,
    BitVec.ofInt_toInt, ← pos, start.2, convertToPos_of_nonneg (by omega)]
  dsimp only
  have pixels : (c.writePixel c.row c.col ⟨b, c.currentColor⟩) =
      { c with pixels := Function.update c.pixels p ⟨b, c.currentColor⟩ } := by
    rw [writePixel, ← pos, start.2]
  rw [pixels]
  by_cases room : p + 1 < consoleHeight * consoleWidth
  · have valid : validatePos ((p + 1) / consoleWidth) ((p + 1) % consoleWidth) = true := by
      simp only [validatePos_iff, consoleHeight, consoleWidth] at *
      omega
    rw [if_pos valid, if_pos room]
    rfl
  · have last : p + 1 = consoleHeight * consoleWidth := by omega
    rw [if_neg room, last, if_neg (by decide), scrollUp_eq _ (by decide) (by decide)]
    exact moved_of_valid (show validatePos (consoleHeight - 1) 0 = true by decide)

end

/-! ### Strings -/

section
variable {c : Console}

theorem putbytes_succ (c : Console) (s : Nat → Byte) (i : Nat) :
    c.putbytes (some s) ((i + 1 : Nat) : Int) = (c.putbytes (some s) i).putbyte (s i) := by
  simp only [putbytes, Int.toNat_natCast, List.range_succ, List.foldl_append, List.foldl_cons,
    List.foldl_nil]

/-- What `putbyte` keeps: a cursor on the screen, and the two colours. -/
structure Keeps (c c' : Console) : Prop where
  valid : validatePos c'.row c'.col = true
  current : c'.currentColor = c.currentColor
  initial : c'.initialColor = c.initialColor

theorem keeps_moved {p : Int} (on : OnScreen p) (pixels : Int → Pixel) : c.Keeps (c.moved p pixels) :=
  ⟨(moved_at on).1, rfl, rfl⟩

theorem keeps_putbyte (valid : validatePos c.row c.col = true) (b : Byte) : c.Keeps (c.putbyte b) := by
  have start : c.At c.pos := ⟨valid, rfl⟩
  have on := start.on
  by_cases refused : ¬ Ascii b ∨ ¬ Ascii c.currentColor
  · rw [putbyte_refused refused]
    exact ⟨valid, rfl, rfl⟩
  obtain ⟨ascii, colour⟩ := not_or.mp refused
  rw [not_not] at ascii colour
  simp only [OnScreen, consoleHeight, consoleWidth] at on
  have near : ∀ p : Int, 0 ≤ p → p < 2000 → OnScreen p := fun p low high => ⟨low, high⟩
  cases plain : isControl b with
  | false =>
      rw [putbyte_char start colour ascii plain]
      split <;> rename_i room <;> simp only [consoleHeight, consoleWidth] at room ⊢ <;>
        exact keeps_moved (near _ (by omega) (by omega)) _
  | true =>
      simp only [isControl, Bool.or_eq_true, decide_eq_true_eq] at plain
      rcases plain with (rfl | rfl) | rfl
      · rw [putbyte_backspace start colour]
        split
        · exact keeps_moved (near _ (by omega) (by omega)) _
        · exact keeps_moved (near _ (by decide) (by decide)) _
      · rw [putbyte_newline start colour]
        split <;> rename_i room <;> simp only [consoleHeight, consoleWidth] at room ⊢ <;>
          exact keeps_moved (near _ (by omega) (by omega)) _
      · rw [putbyte_carriageReturn start colour]
        simp only [consoleWidth]
        exact keeps_moved (near _ (by omega) (by omega)) _

theorem keeps_putbytes (valid : validatePos c.row c.col = true) (s : Nat → Byte) (i : Nat) :
    c.Keeps (c.putbytes (some s) i) := by
  induction i with
  | zero => exact ⟨valid, rfl, rfl⟩
  | succ i ih =>
      rw [putbytes_succ]
      have next := keeps_putbyte ih.valid (s i)
      exact ⟨next.valid, next.current.trans ih.current, next.initial.trans ih.initial⟩

/-! ### What is shown -/

/-- The byte stands in this colour in the cell where the cursor was, and the cursor has
gone on by one cell; if there is none, the screen has moved up by a row. -/
def Shown (c : Console) (b color : Byte) (c' : Console) : Prop :=
  let stored := Function.update c.pixels c.pos ⟨b, color⟩
  if c.pos + 1 < consoleHeight * consoleWidth then c'.At (c.pos + 1) ∧ c'.pixels = stored
  else c'.At ((consoleHeight - 1) * consoleWidth) ∧ ∀ q, OnScreen q → c'.pixels q =
    if q < (consoleHeight - 1) * consoleWidth then stored (q + consoleWidth) else c.blank

theorem shown_putbyte_iff (valid : validatePos c.row c.col = true) {b : Byte}
    (plain : isControl b = false) :
    c.Shown b c.currentColor (c.putbyte b) ↔ Ascii b ∧ Ascii c.currentColor := by
  have start : c.At c.pos := ⟨valid, rfl⟩
  have on := start.on
  constructor
  · intro shown
    by_contra refused
    rw [putbyte_refused (not_and_or.mp refused), Shown] at shown
    split at shown
    · have same : c.pos = c.pos + 1 := shown.1.2
      omega
    · rename_i last
      have same : c.pos = (consoleHeight - 1) * consoleWidth := shown.1.2
      simp only [consoleHeight, consoleWidth] at last same
      omega
  · rintro ⟨ascii, colour⟩
    rw [putbyte_char start colour ascii plain, Shown]
    split
    · rename_i room
      exact ⟨moved_at ⟨Int.le_add_one on.1, room⟩, rfl⟩
    · exact ⟨moved_at ⟨by decide, by decide⟩, fun q inside => scrolled_one _ _ inside⟩

/-- A colour that `set_term_color` takes is shown as it is when it fits into seven bits. -/
theorem ascii_setTermColor {color : Int} (set : (c.setTermColor color).2 = true) :
    (c.setTermColor color).1.currentColor = .ofInt 8 color ∧
      (Ascii (.ofInt 8 color) ↔ color < 128) := by
  rw [setTermColor] at set ⊢
  split at set
  · rename_i isChar
    rw [if_pos isChar]
    have same : ((BitVec.ofInt 8 color).toNat : Int) = color := of_decide_eq_true isChar
    exact ⟨rfl, by rw [Ascii]; omega⟩
  · cases set

/-- The bytes of a string are shown in the colour that was set exactly when they, and the
colour, fit into seven bits. -/
theorem shown_iff (valid : validatePos c.row c.col = true) {color : Int}
    (set : (c.setTermColor color).2 = true) :
    (∀ b, isControl b = false →
      ((c.setTermColor color).1.Shown b (.ofInt 8 color) ((c.setTermColor color).1.putbyte b) ↔
        Ascii b ∧ color < 128)) ∧
    ∀ (s : Nat → Byte) (len : Nat),
      (∀ i < len, isControl (s i) = false →
        ((c.setTermColor color).1.putbytes (some s) i).Shown (s i) (.ofInt 8 color)
          ((c.setTermColor color).1.putbytes (some s) ((i + 1 : Nat) : Int))) ↔
      ∀ i < len, isControl (s i) = false → Ascii (s i) ∧ color < 128 := by
  obtain ⟨coloured, small⟩ := ascii_setTermColor set
  have valid' : validatePos (c.setTermColor color).1.row (c.setTermColor color).1.col = true := by
    rw [setTermColor]
    split <;> exact valid
  rw [← small]
  refine ⟨fun b plain => ?_, fun s len => ?_⟩
  · rw [← coloured]
    exact shown_putbyte_iff valid' plain
  · refine forall_congr' fun i => forall_congr' fun _ => forall_congr' fun plain => ?_
    have kept := keeps_putbytes valid' s i
    rw [putbytes_succ, ← coloured, ← kept.current]
    exact shown_putbyte_iff kept.valid plain

/-- A console as it is after booting, with a blank screen. -/
def fresh : Console := ⟨true, 0, 0, 7, 7, fun _ => ⟨32, 7⟩, 0⟩

theorem shown_iff_fresh : (fresh.setTermColor 15).1.Shown 65 15 ((fresh.setTermColor 15).1.putbyte 65) :=
  ((shown_iff (c := fresh) (by decide) (show (fresh.setTermColor 15).2 = true by decide)).1 65
    (by decide)).mpr (by decide)

/-- A blinking colour is taken, and nothing is printed in it. -/
theorem blinking_not_shown : ¬ ∀ (c : Console) (color : Int) (b : Byte),
    validatePos c.row c.col = true → (c.setTermColor color).2 = true → isControl b = false →
      (c.setTermColor color).1.Shown b (.ofInt 8 color) ((c.setTermColor color).1.putbyte b) := by
  intro shows
  have moves := shows fresh 0x8F 65 (by decide) (by decide) (by decide)
  have stays : (fresh.setTermColor 0x8F).1.putbyte 65 = (fresh.setTermColor 0x8F).1 :=
    putbyte_refused (.inr (by decide))
  rw [stays, Shown, if_pos (by decide)] at moves
  exact absurd moves.1.2 (by decide)

end

end Console

end OsKernel.Guest
