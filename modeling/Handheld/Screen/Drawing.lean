/-
  Handheld.Screen.Drawing — what a program asks of the screen and the speaker.
-/

import Handheld.Machine.Cell
import Handheld.Text.Decimal
import Handheld.Text.Quoted

namespace Handheld

/-- A rectangle of sprite blocks, `w` by `h` of them from the block `index` on. -/
structure Blit where
  x : Cell
  y : Cell
  index : Cell
  w : Cell
  h : Cell
  flipX : Bool
  flipY : Bool
  deriving DecidableEq

inductive Drawing where
  | clear (color : Cell)
  | setColor (color : Cell)
  | line (x0 y0 x1 y1 : Cell)
  | fillRect (x y w h : Cell)
  | sprite (b : Blit)
  | text (x y : Cell) (body : String)
  | sound (index : Nat)
  deriving DecidableEq

/-- A record with its fields in order. -/
def inspectRecord (name : String) (fields : List (String × String)) : String :=
  name ++ " \x7b " ++ String.intercalate ", " (fields.map fun (k, v) => k ++ ": " ++ v) ++ " \x7d"

def inspectCell (v : Cell) : String := Text.showInt v.toInt

def inspectBool (b : Bool) : String := if b then "true" else "false"

def Blit.inspect (b : Blit) : String :=
  inspectRecord "SpriteBlit"
    [("x", inspectCell b.x), ("y", inspectCell b.y), ("index", inspectCell b.index), ("w", inspectCell b.w),
     ("h", inspectCell b.h), ("flip_x", inspectBool b.flipX), ("flip_y", inspectBool b.flipY)]

def Drawing.inspect : Drawing → String
  | .clear color => "Cls(" ++ inspectCell color ++ ")"
  | .setColor color => "SetColor(" ++ inspectCell color ++ ")"
  | .line x0 y0 x1 y1 =>
    inspectRecord "Line"
      [("x0", inspectCell x0), ("y0", inspectCell y0), ("x1", inspectCell x1), ("y1", inspectCell y1)]
  | .fillRect x y w h =>
    inspectRecord "FillRect"
      [("x", inspectCell x), ("y", inspectCell y), ("w", inspectCell w), ("h", inspectCell h)]
  | .sprite b => "Sprite(" ++ b.inspect ++ ")"
  | .text x y body =>
    inspectRecord "Text" [("x", inspectCell x), ("y", inspectCell y), ("text", Text.quoted body)]
  | .sound index => "Sfx(" ++ Text.showNat index ++ ")"

end Handheld
