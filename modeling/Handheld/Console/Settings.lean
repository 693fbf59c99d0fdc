/-
  Handheld.Console.Settings — what a console is told, and what it tells its programs.

  The prelude defines the constants every program starts with: the buttons, the colours and
  the size of the screen.
-/

import Handheld.Screen.Color
import Handheld.Text.Decimal

namespace Handheld

structure ConsoleSettings where
  /-- The word that is run for every frame. -/
  entryPoint : String := "draw_frame"
  screenWidth : Cell := 128
  screenHeight : Cell := 128
  /-- Milliseconds between frames in real time. -/
  tickInterval : Nat := 33
  deriving DecidableEq

namespace ConsoleSettings

def buttons : List (String × Nat) :=
  [("BUTTON_L", 1), ("BUTTON_R", 2), ("BUTTON_U", 4), ("BUTTON_D", 8), ("BUTTON_A", 16), ("BUTTON_B", 32)]

/-- The constants of the prelude, in order. -/
def constants (s : ConsoleSettings) : List (String × Int) :=
  buttons.map (fun (name, bit) => (name, (bit : Int))) ++
    Color.palette.zipIdx.map (fun ((name, _), i) => (name, (i : Int))) ++
    [("SCREEN_WIDTH", s.screenWidth.toInt), ("SCREEN_HEIGHT", s.screenHeight.toInt)]

def preludeText (s : ConsoleSettings) : String :=
  String.join (s.constants.map fun (name, v) => Text.showInt v ++ " constant " ++ name ++ "\n")

end ConsoleSettings

end Handheld
