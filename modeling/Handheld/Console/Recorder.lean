/-
  Handheld.Console.Recorder — a host that keeps what the program asks of it.

  `words` are the host's words: drawing, sound and input. Each sees only its arguments, the
  memory it reads text from, the recorder and the output.
-/

import Handheld.Lexicon.Dictionary
import Handheld.Screen.Drawing

namespace Handheld

structure Recorder where
  commands : Array Drawing
  output : String
  /-- The buttons held down, one bit each. -/
  buttons : Cell
  deriving DecidableEq

namespace Recorder

def withButtons (buttons : Cell) : Recorder := ⟨#[], "", buttons⟩

def record (r : Recorder) (d : Drawing) : Recorder := { r with commands := r.commands.push d }

def hear (r : Recorder) (text : String) : Recorder := { r with output := r.output ++ text }

/-- How many sounds there are to play. -/
def soundCount : Nat := 32

/-- A word that only records. -/
def recording (d : Drawing) : EStateM Fault (Surface Recorder) (Option Cell) := fun ⟨host, output⟩ =>
  .ok none ⟨host.record d, output⟩

def clear : Native Recorder
  | [color], _ => recording (.clear color)
  | _, _ => pure none

def setColor : Native Recorder
  | [color], _ => recording (.setColor color)
  | _, _ => pure none

def drawLine : Native Recorder
  | [x0, y0, x1, y1], _ => recording (.line x0 y0 x1 y1)
  | _, _ => pure none

def fillRect : Native Recorder
  | [x, y, w, h], _ => recording (.fillRect x y w h)
  | _, _ => pure none

def drawSprite : Native Recorder
  | [x, y, index, w, h, flipX, flipY], _ => recording (.sprite ⟨x, y, index, w, h, flipX ≠ 0, flipY ≠ 0⟩)
  | _, _ => pure none

def drawText : Native Recorder
  | [x, y, addr, len], memory => do
    let bytes ← Native.bytesAt memory addr len
    recording (.text x y (Text.ofUtf8 bytes))
  | _, _ => pure none

/-- Prints a number on a line of its own. -/
def printLine : Native Recorder
  | [v], _ => do
    Native.write (Text.showInt v.toInt ++ "\n")
    return none
  | _, _ => pure none

def readButtons : Native Recorder := fun _ _ => do return some (← get).host.buttons

/-- Plays a sound; a number that names none is ignored. -/
def playSound : Native Recorder
  | [v], _ =>
    match v.toNat? with
    | some index => if index < soundCount then recording (.sound index) else pure none
    | none => pure none
  | _, _ => pure none

def words : List (String × Nat × Native Recorder) :=
  [("cls", 1, clear), ("set_color", 1, setColor), ("draw_line", 4, drawLine), ("fill_rect", 4, fillRect),
   ("draw_sprite", 7, drawSprite), ("draw_text", 4, drawText), (".", 1, printLine),
   ("buttons", 0, readButtons), ("sfx", 1, playSound)]

end Recorder

end Handheld
