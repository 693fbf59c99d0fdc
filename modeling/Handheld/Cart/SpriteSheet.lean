/-
  Handheld.Cart.SpriteSheet — a sheet of 128 by 128 palette colours, row by row.

  As text a sheet is one hexadecimal digit per pixel up to the last that is not transparent,
  with a line feed after each full row. Blanks and closing parentheses between the digits mean
  nothing, pixels without a digit are transparent, and digits past the sheet are dropped.

  Pixels are reached by row and column. Of the two only the column is compared with the edge of the
  sheet before the place of the pixel is computed, which stops the program if it does not fit.
-/

import Handheld.Machine.Size
import Handheld.Text.Hex
import Handheld.Screen.Color
import Handheld.Text.Blank
import Handheld.Text.Decimal
import Handheld.Text.Quoted

namespace Handheld

/-- Why a text is not a cart. -/
inductive CartFault where
  | missingAssets
  | misorderedAssets
  /-- A character that is no digit, with its place in bytes. -/
  | badDigit (c : Char) (offset : Nat)
  deriving DecidableEq

def CartFault.message : CartFault → String
  | .missingAssets => "cart is missing its sprite or sound data"
  | .misorderedAssets => "cart sound data comes before sprite data"
  | .badDigit c offset => "invalid sprite pixel " ++ Text.quotedChar c ++ " at offset " ++ Text.showNat offset

structure SpriteSheet where
  pixels : Vector ColorIndex 16384
  deriving DecidableEq

namespace SpriteSheet

def width : Nat := 128

/-- Blocks are eight pixels square, sixteen to a row and to a column. -/
def blockSize : Nat := 8

def blocks : Nat := 16

def blank : SpriteSheet := ⟨Vector.replicate 16384 Color.transparent⟩

/-- Where a pixel is kept. -/
def place (x y : Nat) : Except Overflow Nat := do
  let start ← Size.mul y width
  Size.add start x

def get? (s : SpriteSheet) (x y : Nat) : Except Overflow (Option ColorIndex) :=
  if x < width then do
    let k ← place x y
    return s.pixels[k]?
  else return none

/-- Outside the sheet nothing is set. -/
def set (s : SpriteSheet) (x y : Nat) (color : Cell) : Except Overflow SpriteSheet :=
  if x < width then do
    let k ← place x y
    return ⟨s.pixels.setIfInBounds k (Color.index color)⟩
  else return s

/-- The pixels that are not transparent. -/
def opaqueCount (s : SpriteSheet) : Nat := s.pixels.toList.countP (· ≠ Color.transparent)

def inspect (s : SpriteSheet) : String :=
  "SpriteSheet \x7b opaque_pixels: " ++ Text.showNat s.opaqueCount ++ " \x7d"

/-- The top left pixel of a block, counted row by row. -/
def blockOrigin? (index : Cell) : Option (Nat × Nat) :=
  match index.toNat? with
  | some i => if i < blocks * blocks then some (i % blocks * blockSize, i / blocks * blockSize) else none
  | none => none

/-- The pixels up to the last that is not transparent. -/
def used (s : SpriteSheet) : List ColorIndex :=
  (s.pixels.toList.reverse.dropWhile (· = Color.transparent)).reverse

/-- The digit of the pixel at place `i`, with the line feed that ends its row. -/
def encodePixel (p : ColorIndex) (i : Nat) : List Char :=
  if i % width = width - 1 then [Hex.char p, '\n'] else [Hex.char p]

def encode (s : SpriteSheet) : String :=
  String.ofList (s.used.zipIdx.flatMap fun (p, i) => encodePixel p i)

def isFiller (c : Char) : Bool := Text.isBlank c || c == ')'

/-- Reads on, `offset` bytes into a text: the next digit is the pixel at place `next`, or is dropped
    if there is none. -/
def decodeFrom (s : SpriteSheet) (next offset : Nat) : List Char → Except CartFault SpriteSheet
  | [] => .ok s
  | c :: cs =>
    if isFiller c then s.decodeFrom next (offset + c.utf8Size) cs
    else
      match Hex.digit? c with
      | none => .error (.badDigit c offset)
      | some d => decodeFrom ⟨s.pixels.setIfInBounds next d⟩ (next + 1) (offset + c.utf8Size) cs

def decode (cs : List Char) : Except CartFault SpriteSheet := blank.decodeFrom 0 0 cs

end SpriteSheet

end Handheld
