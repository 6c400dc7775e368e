/-
The console driver (`kern/console.c`).

Positions are rows and columns as the `int`s of the source, and the console memory is
indexed by pixels. A `char` is a byte; where the source passes one as an `int` it is
extended with its sign, as the compiler does it.
-/

import Mathlib.Logic.Function.Basic
import Mathlib.Data.Int.Notation
import Mathlib.Tactic.Common

namespace OsKernel.Guest

abbrev Byte := BitVec 8

/-- `CONSOLE_HEIGHT` -/
def consoleHeight : Int := 25

/-- `CONSOLE_WIDTH` -/
def consoleWidth : Int := 80

structure Pixel where
  ch : Byte
  color : Byte
deriving DecidableEq

/-- `cursor`, `terminal`, the console memory and the cursor position in the CRTC. -/
structure Console where
  visibility : Bool
  row : Int
  col : Int
  initialColor : Byte
  currentColor : Byte
  pixels : Int → Pixel
  crtc : BitVec 16

namespace Console

/-- `validate_pos` -/
def validatePos (row col : Int) : Bool :=
  0 ≤ row ∧ row < consoleHeight ∧ 0 ≤ col ∧ col < consoleWidth

/-- `convert_to_pixel_idx` -/
def convertToPixelIdx (row col : Int) : Int := row * consoleWidth + col

/-- `convert_to_pos`; division truncates. -/
def convertToPos (pixelIdx : Int) : Int × Int :=
  (pixelIdx.tdiv consoleWidth, pixelIdx.tmod consoleWidth)

/-- `(unsigned char)i == i` -/
def isUnsignedChar (i : Int) : Bool := ((BitVec.ofInt 8 i).toNat : Int) = i

/-- `place_cursor`, with `write_to_crtc`: the low two bytes of the index are sent. -/
def placeCursor (c : Console) : Console :=
  { c with crtc := .ofInt 16 <| if c.visibility then convertToPixelIdx c.row c.col
      else convertToPixelIdx consoleHeight consoleWidth }

def writePixel (c : Console) (row col : Int) (pixel : Pixel) : Console :=
  { c with pixels := Function.update c.pixels (convertToPixelIdx row col) pixel }

def readPixel (c : Console) (row col : Int) : Pixel := c.pixels (convertToPixelIdx row col)

/-- `n` ints from `start` on. -/
def range (start : Int) (n : Nat) : List Int := (List.range n).map fun (i : Nat) => start + i

/-- `scroll_up` -/
def scrollUp (c : Console) (lineCount : Int) (fillColor : Byte) : Console :=
  if lineCount ≤ 0 then c
  else
    let moved := (range 0 (consoleHeight - lineCount).toNat).foldl (fun c i =>
      (range 0 consoleWidth.toNat).foldl (fun c j => c.writePixel i j (c.readPixel (i + lineCount) j))
        c) c
    (range (consoleHeight - lineCount) lineCount.toNat).foldl (fun c i =>
      (range 0 consoleWidth.toNat).foldl (fun c j => c.writePixel i j ⟨32#8, fillColor⟩) c) moved

/-- `draw_char`; the colour is not looked at for the three control characters, except
that it has to be one. -/
def drawChar (c : Console) (row col ch color : Int) : Console :=
  if validatePos row col = false ∨ isUnsignedChar ch = false ∨ isUnsignedChar color = false then c
  else if ch = 10 then
    if validatePos (row + 1) 0 then { c with row := row + 1, col := 0 }.placeCursor
    else ({ c with row := row, col := 0 }.scrollUp 1 c.initialColor).placeCursor
  else if ch = 13 then { c with row := row, col := 0 }.placeCursor
  else if ch = 8 then
    let (row, col) := convertToPos (convertToPixelIdx row col - 1)
    if validatePos row col then
      { c.writePixel row col ⟨32#8, c.initialColor⟩ with row := row, col := col }.placeCursor
    else { c with row := row + 1, col := 0 }.placeCursor
  else
    let drawn := c.writePixel row col ⟨.ofInt 8 ch, .ofInt 8 color⟩
    let (row, col) := convertToPos (convertToPixelIdx row col + 1)
    if validatePos row col then { drawn with row := row, col := col }.placeCursor
    else { drawn.scrollUp 1 c.initialColor with row := row - 1, col := col }.placeCursor

/-- `putbyte` -/
def putbyte (c : Console) (ch : Byte) : Console :=
  c.drawChar c.row c.col ch.toInt c.currentColor.toInt

/-- `set_term_color`, and whether it succeeds. -/
def setTermColor (c : Console) (color : Int) : Console × Bool :=
  if isUnsignedChar color then ({ c with currentColor := .ofInt 8 color }, true) else (c, false)

/-- `get_term_color` -/
def getTermColor (c : Console) : Int := c.currentColor.toNat

/-- `set_cursor`, and whether it succeeds. -/
def setCursor (c : Console) (row col : Int) : Console × Bool :=
  if validatePos row col then ({ c with row := row, col := col }.placeCursor, true) else (c, false)

end Console

end OsKernel.Guest
