/-
  Handheld.Screen.Color — the palette.

  A program names a colour by any cell; its four low bits choose one of sixteen.
-/

import Handheld.Machine.Cell

namespace Handheld

abbrev ColorIndex := Fin 16

structure Rgba where
  red : Nat
  green : Nat
  blue : Nat
  alpha : Nat
  deriving DecidableEq

namespace Color

def transparent : ColorIndex := ⟨0, by decide⟩

def index (color : Cell) : ColorIndex := Fin.ofNat 16 color.toUInt32.toNat

/-- The colours in order, with the names programs know them by. -/
def palette : List (String × Rgba) :=
  [("C_TRANSPARENT", ⟨0, 0, 0, 0⟩), ("C_BLACK", ⟨0, 0, 0, 255⟩), ("C_RED", ⟨255, 0, 0, 255⟩),
   ("C_LIGHT_GREEN", ⟨0, 192, 0, 255⟩), ("C_BLUE", ⟨0, 0, 255, 255⟩), ("C_MAGENTA", ⟨255, 0, 255, 255⟩),
   ("C_YELLOW", ⟨255, 255, 0, 255⟩), ("C_CYAN", ⟨0, 255, 255, 255⟩), ("C_GRAY", ⟨128, 128, 128, 255⟩),
   ("C_LIGHT_BLUE", ⟨0, 165, 255, 255⟩), ("C_ORANGE", ⟨255, 165, 0, 255⟩), ("C_PURPLE", ⟨128, 0, 128, 255⟩),
   ("C_DARK_GREEN", ⟨0, 100, 0, 255⟩), ("C_BROWN", ⟨160, 82, 45, 255⟩), ("C_SALMON", ⟨217, 113, 98, 255⟩),
   ("C_WHITE", ⟨255, 255, 255, 255⟩)]

theorem length_palette : palette.length = 16 := rfl

def rgba (color : Cell) : Rgba := (palette.get ((index color).cast length_palette.symm)).2

end Color

end Handheld
