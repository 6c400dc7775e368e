/-
The cursor and the screen under any sequence of console calls.

Each call is taken with any arguments. `scrollUp_eq` says what the two loops of
`scroll_up` come to; the rest is arithmetic on pixel indices. After `clear_console` the
cursor stays on the screen, the CRTC shows it there, and nothing off the screen is
written.
-/

import OsKernel.Guest.Console
import OsKernel.Lib.Run

namespace OsKernel.Guest

open Run

/-! ### Calls -/

inductive ConsoleCall where
  | putbyte (ch : Byte)
  /-- The string from its first byte on; none for a null pointer. -/
  | putbytes (s : Option (Nat → Byte)) (len : Int)
  | drawChar (row col ch color : Int)
  | setCursor (row col : Int)
  | setTermColor (color : Int)
  | hideCursor
  | showCursor
  | clearConsole

namespace Console

/-- `putbytes` -/
def putbytes (c : Console) (s : Option (Nat → Byte)) (len : Int) : Console :=
  match s with
  | none => c
  | some s => (List.range len.toNat).foldl (fun c i => c.putbyte (s i)) c

/-- `hide_cursor` -/
def hideCursor (c : Console) : Console := { c with visibility := false }.placeCursor

/-- `show_cursor` -/
def showCursor (c : Console) : Console := { c with visibility := true }.placeCursor

/-- `clear_console` -/
def clearConsole (c : Console) : Console :=
  { c.scrollUp consoleHeight c.initialColor with row := 0, col := 0 }.placeCursor

def call (c : Console) : ConsoleCall → Console
  | .putbyte ch => c.putbyte ch
  | .putbytes s len => c.putbytes s len
  | .drawChar row col ch color => c.drawChar row col ch color
  | .setCursor row col => (c.setCursor row col).1
  | .setTermColor color => (c.setTermColor color).1
  | .hideCursor => c.hideCursor
  | .showCursor => c.showCursor
  | .clearConsole => c.clearConsole

/-! ### Scrolling -/

/-- A loop over `n` ints, by what it has come to at each of them. -/
theorem foldl_range {σ : Type} (f : σ → Int → σ) (state : Int → σ) (start : Int) (n : Nat)
    (step : ∀ i, start ≤ i → i < start + n → f (state i) i = state (i + 1)) :
    (range start n).foldl f (state start) = state (start + n) := by
  induction n with
  | zero => exact congrArg state (Int.add_zero start).symm
  | succ n ih =>
      rw [range, List.range_succ, List.map_append, List.foldl_append, ← range,
        ih fun i low high => step i low (by omega)]
      rw [List.map_singleton, List.foldl_cons, List.foldl_nil, step _ (by omega) (by omega)]
      congr 1
      omega

/-- A pixel of the screen, by its index. -/
def OnScreen (p : Int) : Prop := 0 ≤ p ∧ p < consoleHeight * consoleWidth

instance (p : Int) : Decidable (OnScreen p) := inferInstanceAs (Decidable (_ ∧ _))

/-- The pixels after the first `p` ones have been taken from `lineCount` rows below. -/
def movedUp (pixels : Int → Pixel) (lineCount p : Int) : Int → Pixel := fun q =>
  if 0 ≤ q ∧ q < p then pixels (q + lineCount * consoleWidth) else pixels q

/-- The pixels after those from `first` up to `p` have been blanked. -/
def blanked (pixels : Int → Pixel) (fillColor : Byte) (first p : Int) : Int → Pixel := fun q =>
  if first ≤ q ∧ q < p then ⟨32#8, fillColor⟩ else pixels q

theorem movedUp_in {pixels : Int → Pixel} {n p q : Int} (low : 0 ≤ q) (lt : q < p) :
    movedUp pixels n p q = pixels (q + n * consoleWidth) := if_pos ⟨low, lt⟩

theorem movedUp_out {pixels : Int → Pixel} {n p q : Int} (out : q < 0 ∨ p ≤ q) :
    movedUp pixels n p q = pixels q := if_neg (by omega)

theorem blanked_in {pixels : Int → Pixel} {fillColor : Byte} {first p q : Int} (low : first ≤ q)
    (lt : q < p) : blanked pixels fillColor first p q = ⟨32#8, fillColor⟩ := if_pos ⟨low, lt⟩

theorem blanked_out {pixels : Int → Pixel} {fillColor : Byte} {first p q : Int}
    (out : q < first ∨ p ≤ q) : blanked pixels fillColor first p q = pixels q := if_neg (by omega)

theorem movedUp_succ (pixels : Int → Pixel) (n : Int) {p : Int} (low : 0 ≤ p) :
    Function.update (movedUp pixels n p) p (pixels (p + n * consoleWidth)) =
      movedUp pixels n (p + 1) := by
  funext q
  by_cases here : q = p
  · subst here
    rw [Function.update_self, movedUp_in low (by omega)]
  · rw [Function.update_of_ne here]
    by_cases inside : 0 ≤ q ∧ q < p
    · rw [movedUp_in inside.1 inside.2, movedUp_in inside.1 (by omega)]
    · rw [movedUp_out (by omega), movedUp_out (by omega)]

theorem blanked_succ (pixels : Int → Pixel) (fillColor : Byte) {first p : Int} (low : first ≤ p) :
    Function.update (blanked pixels fillColor first p) p ⟨32#8, fillColor⟩ =
      blanked pixels fillColor first (p + 1) := by
  funext q
  by_cases here : q = p
  · subst here
    rw [Function.update_self, blanked_in low (by omega)]
  · rw [Function.update_of_ne here]
    by_cases inside : first ≤ q ∧ q < p
    · rw [blanked_in inside.1 inside.2, blanked_in inside.1 (by omega)]
    · rw [blanked_out (by omega), blanked_out (by omega)]

/-- The console with other pixels. -/
def draw (c : Console) (pixels : Int → Pixel) : Console := { c with pixels := pixels }

/-- A loop over rows and columns, by what it has come to at each pixel. -/
theorem foldl_rows (f : Console → Int → Int → Console) (state : Int → Console) (start : Int) (n : Nat)
    (step : ∀ i j, start ≤ i → 0 ≤ j → j < consoleWidth →
      f (state (convertToPixelIdx i j)) i j = state (convertToPixelIdx i j + 1)) :
    (range start n).foldl (fun c i => (range 0 consoleWidth.toNat).foldl (fun c j => f c i j) c)
        (state (start * consoleWidth)) = state ((start + n) * consoleWidth) := by
  refine foldl_range _ (fun i => state (i * consoleWidth)) _ _ fun i above _ => ?_
  have row := foldl_range (fun c j => f c i j) (fun j => state (convertToPixelIdx i j)) 0
    consoleWidth.toNat fun j left lt => by
      rw [step i j above left (by simpa [consoleWidth] using lt), convertToPixelIdx,
        convertToPixelIdx, Int.add_assoc]
  have first : convertToPixelIdx i 0 = i * consoleWidth := Int.add_zero _
  have last : convertToPixelIdx i (0 + consoleWidth.toNat) = (i + 1) * consoleWidth := by
    rw [convertToPixelIdx, Int.add_mul]
    rfl
  rw [first, last] at row
  exact row

/-- What `scroll_up` makes of the screen. -/
def scrolled (pixels : Int → Pixel) (lineCount : Int) (fillColor : Byte) : Int → Pixel :=
  blanked (movedUp pixels lineCount ((consoleHeight - lineCount) * consoleWidth)) fillColor
    ((consoleHeight - lineCount) * consoleWidth) (consoleHeight * consoleWidth)

theorem scrollUp_eq (c : Console) {lineCount : Int} (some : 0 < lineCount)
    (fits : lineCount ≤ consoleHeight) (fillColor : Byte) :
    c.scrollUp lineCount fillColor = c.draw (scrolled c.pixels lineCount fillColor) := by
  have rows : ((consoleHeight - lineCount).toNat : Int) = consoleHeight - lineCount :=
    Int.toNat_of_nonneg (by omega)
  have lines : (lineCount.toNat : Int) = lineCount := Int.toNat_of_nonneg (by omega)
  have up := foldl_rows (fun c i j => c.writePixel i j (c.readPixel (i + lineCount) j))
    (fun p => c.draw (movedUp c.pixels lineCount p)) 0 (consoleHeight - lineCount).toNat
    fun i j low left _ => by
      have below : convertToPixelIdx (i + lineCount) j =
          convertToPixelIdx i j + lineCount * consoleWidth := by
        rw [convertToPixelIdx, convertToPixelIdx, Int.add_mul]
        omega
      have source : (c.draw (movedUp c.pixels lineCount (convertToPixelIdx i j))).readPixel
          (i + lineCount) j = c.pixels (convertToPixelIdx i j + lineCount * consoleWidth) := by
        simp only [readPixel, draw, below]
        exact movedUp_out (.inr (by simp only [consoleWidth]; omega))
      rw [source, ← movedUp_succ _ _ (by simp only [convertToPixelIdx, consoleWidth]; omega)]
      rfl
  have down := foldl_rows (fun c i j => c.writePixel i j ⟨32#8, fillColor⟩)
    (fun p => c.draw (blanked (movedUp c.pixels lineCount ((consoleHeight - lineCount) * consoleWidth))
      fillColor ((consoleHeight - lineCount) * consoleWidth) p)) (consoleHeight - lineCount)
    lineCount.toNat fun i j low left _ => by
      rw [← blanked_succ _ _ (by simp only [convertToPixelIdx, consoleWidth]; omega)]
      rfl
  have start : c = c.draw (movedUp c.pixels lineCount (0 * consoleWidth)) := by
    have none : movedUp c.pixels lineCount (0 * consoleWidth) = c.pixels :=
      funext fun q => movedUp_out (by omega)
    rw [none]
    rfl
  have between : c.draw (movedUp c.pixels lineCount ((0 + (consoleHeight - lineCount)) * consoleWidth)) =
      c.draw (blanked (movedUp c.pixels lineCount ((consoleHeight - lineCount) * consoleWidth)) fillColor
        ((consoleHeight - lineCount) * consoleWidth) ((consoleHeight - lineCount) * consoleWidth)) := by
    rw [Int.zero_add]
    congr 1
    funext q
    rw [blanked_out (by omega)]
  rw [rows, ← start, between] at up
  rw [lines, Int.sub_add_cancel] at down
  rw [scrollUp, if_neg (by omega)]
  dsimp only
  rw [up, down]
  rfl

/-! ### The cursor -/

theorem validatePos_iff {row col : Int} : validatePos row col = true ↔
    0 ≤ row ∧ row < consoleHeight ∧ 0 ≤ col ∧ col < consoleWidth := decide_eq_true_iff

theorem convertToPos_of_nonneg {p : Int} (low : 0 ≤ p) :
    convertToPos p = (p / consoleWidth, p % consoleWidth) := by
  rw [convertToPos, Int.tdiv_eq_ediv_of_nonneg low, Int.tmod_eq_emod_of_nonneg low]

theorem onScreen_of_validatePos {row col : Int} (valid : validatePos row col = true) :
    OnScreen (convertToPixelIdx row col) := by
  simp only [validatePos_iff, OnScreen, convertToPixelIdx, consoleHeight, consoleWidth] at *
  omega

/-- One pixel back from the first one is in no row: division truncates. -/
theorem convertToPos_back {row col : Int} (valid : validatePos row col = true)
    (out : validatePos (convertToPos (convertToPixelIdx row col - 1)).1
      (convertToPos (convertToPixelIdx row col - 1)).2 = false) :
    row = 0 ∧ col = 0 := by
  obtain ⟨low, high, left, right⟩ := validatePos_iff.mp valid
  by_contra further
  have some : 0 ≤ convertToPixelIdx row col - 1 := by
    simp only [convertToPixelIdx, consoleWidth]
    omega
  rw [convertToPos_of_nonneg some, ← Bool.not_eq_true, validatePos_iff] at out
  simp only [convertToPixelIdx, consoleHeight, consoleWidth] at *
  omega

/-- One pixel after the last one is in the row below the screen. -/
theorem convertToPos_next {row col : Int} (valid : validatePos row col = true)
    (out : validatePos (convertToPos (convertToPixelIdx row col + 1)).1
      (convertToPos (convertToPixelIdx row col + 1)).2 = false) :
    convertToPos (convertToPixelIdx row col + 1) = (consoleHeight, 0) := by
  obtain ⟨low, high, left, right⟩ := validatePos_iff.mp valid
  have some : 0 ≤ convertToPixelIdx row col + 1 := by
    simp only [convertToPixelIdx, consoleWidth]
    omega
  rw [convertToPos_of_nonneg some] at out ⊢
  rw [← Bool.not_eq_true, validatePos_iff] at out
  rw [Prod.mk.injEq]
  simp only [convertToPixelIdx, consoleHeight, consoleWidth] at *
  omega

/-- The cursor stands on the screen, and the CRTC shows it there or hides it off the screen. -/
structure Placed (c : Console) : Prop where
  row : 0 ≤ c.row ∧ c.row < consoleHeight
  col : 0 ≤ c.col ∧ c.col < consoleWidth
  shown : c.visibility = true → (c.crtc.toNat : Int) = c.row * consoleWidth + c.col
  hidden : c.visibility = false → ¬ OnScreen c.crtc.toNat

/-- The consoles show the same off the screen, where no call writes. -/
def SameOff (c c' : Console) : Prop := ∀ p, ¬ OnScreen p → c'.pixels p = c.pixels p

theorem SameOff.trans {c c' c'' : Console} (first : c.SameOff c') (next : c'.SameOff c'') :
    c.SameOff c'' := fun p off => (next p off).trans (first p off)

/-- A position that is checked before the cursor is placed there. -/
theorem placed_placeCursor {c : Console} (valid : validatePos c.row c.col = true) :
    c.placeCursor.Placed := by
  obtain ⟨low, high, left, right⟩ := validatePos_iff.mp valid
  refine ⟨⟨low, high⟩, ⟨left, right⟩, fun shown => ?_, fun hidden => ?_⟩
  · simp only [placeCursor] at shown ⊢
    rw [if_pos shown, convertToPixelIdx, BitVec.toNat_ofInt]
    simp only [consoleHeight, consoleWidth] at *
    omega
  · simp only [placeCursor, OnScreen] at hidden ⊢
    rw [hidden, if_neg Bool.false_ne_true]
    decide

theorem scrolled_off (pixels : Int → Pixel) {lineCount : Int} (some : 0 < lineCount)
    (fits : lineCount ≤ consoleHeight) (fillColor : Byte) {p : Int} (off : ¬ OnScreen p) :
    scrolled pixels lineCount fillColor p = pixels p := by
  have part : 0 ≤ (consoleHeight - lineCount) * consoleWidth ∧
      (consoleHeight - lineCount) * consoleWidth ≤ consoleHeight * consoleWidth := by
    simp only [consoleHeight, consoleWidth] at *
    omega
  rw [OnScreen, not_and_or] at off
  rw [scrolled, blanked_out (by omega), movedUp_out (by omega)]

theorem sameOff_writePixel (c : Console) {row col : Int} (valid : validatePos row col = true)
    (pixel : Pixel) : c.SameOff (c.writePixel row col pixel) := by
  intro p off
  have on := onScreen_of_validatePos valid
  exact Function.update_of_ne (fun here => off (by rw [here]; exact on)) _ _

/-- The cursor of the console `c'` is as it should be, and nothing off the screen differs
from `c`. -/
def Good (c c' : Console) : Prop := c'.Placed ∧ c.SameOff c'

section
variable {c : Console}

theorem good_drawChar (placed : c.Placed) (row col ch color : Int) :
    c.Good (c.drawChar row col ch color) := by
  have same : c.SameOff c := fun _ _ => rfl
  have scrolls : ∀ c : Console, ∀ fill, c.scrollUp 1 fill = c.draw (scrolled c.pixels 1 fill) :=
    fun c fill => scrollUp_eq c (by decide) (by decide) fill
  have off : ∀ pixels fill p, ¬ OnScreen p → scrolled pixels 1 fill p = pixels p :=
    fun pixels fill p => scrolled_off pixels (by decide) (by decide) fill
  unfold drawChar
  split
  · exact ⟨placed, same⟩
  rename_i checked
  simp only [not_or, Bool.not_eq_false] at checked
  have valid := checked.1
  obtain ⟨low, high, left, right⟩ := validatePos_iff.mp valid
  have start : validatePos row 0 = true :=
    validatePos_iff.mpr ⟨low, high, Int.le_refl 0, by decide⟩
  split
  · -- a newline
    split
    · rename_i below
      exact ⟨placed_placeCursor below, same⟩
    · rw [scrolls]
      exact ⟨placed_placeCursor start, off c.pixels _⟩
  split
  · exact ⟨placed_placeCursor start, same⟩
  split
  · -- a backspace
    dsimp only
    split
    · rename_i before
      exact ⟨placed_placeCursor before, sameOff_writePixel c before _⟩
    · rename_i before
      obtain ⟨rfl, rfl⟩ := convertToPos_back valid (Bool.not_eq_true _ ▸ before)
      exact ⟨placed_placeCursor (show validatePos 1 0 = true by decide), same⟩
  · dsimp only
    split
    · rename_i after
      exact ⟨placed_placeCursor after, sameOff_writePixel c valid _⟩
    · rename_i after
      rw [convertToPos_next valid (Bool.not_eq_true _ ▸ after), scrolls]
      refine ⟨placed_placeCursor (show validatePos 24 0 = true by decide), fun p out => ?_⟩
      exact (off _ _ p out).trans (sameOff_writePixel c valid _ p out)

theorem good_putbyte (placed : c.Placed) (ch : Byte) : c.Good (c.putbyte ch) :=
  good_drawChar placed _ _ _ _

theorem good_putbytes (placed : c.Placed) (s : Option (Nat → Byte)) (len : Int) :
    c.Good (c.putbytes s len) := by
  unfold putbytes
  cases s with
  | none => exact ⟨placed, fun _ _ => rfl⟩
  | some s =>
      dsimp only
      generalize List.range len.toNat = is
      induction is generalizing c with
      | nil => exact ⟨placed, fun _ _ => rfl⟩
      | cons i is ih =>
          have one := good_putbyte placed (s i)
          have rest := ih one.1
          exact ⟨rest.1, one.2.trans rest.2⟩

/-- Showing or hiding the cursor, wherever it stands on the screen. -/
theorem good_visibility (placed : c.Placed) (visible : Bool) :
    c.Good { c with visibility := visible }.placeCursor :=
  ⟨placed_placeCursor (validatePos_iff.mpr ⟨placed.row.1, placed.row.2, placed.col.1, placed.col.2⟩),
    fun _ _ => rfl⟩

theorem good_setCursor (placed : c.Placed) (row col : Int) : c.Good (c.setCursor row col).1 := by
  unfold setCursor
  split
  · rename_i valid
    exact ⟨placed_placeCursor valid, fun _ _ => rfl⟩
  · exact ⟨placed, fun _ _ => rfl⟩

theorem good_setTermColor (placed : c.Placed) (color : Int) : c.Good (c.setTermColor color).1 := by
  unfold setTermColor
  split
  · exact ⟨⟨placed.row, placed.col, placed.shown, placed.hidden⟩, fun _ _ => rfl⟩
  · exact ⟨placed, fun _ _ => rfl⟩

/-- `clear_console` places the cursor wherever it has been before. -/
theorem good_clearConsole (c : Console) : c.Good c.clearConsole := by
  rw [clearConsole, scrollUp_eq c (by decide) (Int.le_refl _)]
  exact ⟨placed_placeCursor (show validatePos 0 0 = true by decide),
    fun p off => scrolled_off c.pixels (by decide) (Int.le_refl _) _ off⟩

theorem good_call (placed : c.Placed) (k : ConsoleCall) : c.Good (c.call k) := by
  cases k with
  | putbyte ch => exact good_putbyte placed ch
  | putbytes s len => exact good_putbytes placed s len
  | drawChar row col ch color => exact good_drawChar placed row col ch color
  | setCursor row col => exact good_setCursor placed row col
  | setTermColor color => exact good_setTermColor placed color
  | hideCursor => exact good_visibility placed false
  | showCursor => exact good_visibility placed true
  | clearConsole => exact good_clearConsole c

/-- After `clear_console` every sequence of calls keeps the cursor on the screen and the
CRTC with it, and writes nothing off the screen, whatever is there. -/
theorem cursor_on_screen (c : Console) (ks : List ConsoleCall) :
    Along call c.Good c.clearConsole ks := by
  refine along_of_invariant (P := c.Good) (fun c' k good => ?_) (good_clearConsole c) ks
  have next := good_call good.1 k
  exact ⟨next.1, good.2.trans next.2⟩

end

end Console

end OsKernel.Guest
