/-
  Handheld.Text.Blank — white space.

  A character is blank when Unicode gives it the property White_Space. Words are the
  maximal runs of other characters, lines end at a line feed, and trimming removes the
  blanks at one end.
-/

namespace Handheld.Text

def isBlank (c : Char) : Bool :=
  let n := c.toNat
  (0x09 ≤ n && n ≤ 0x0D) || n == 0x20 || n == 0x85 || n == 0xA0 || n == 0x1680 ||
    (0x2000 ≤ n && n ≤ 0x200A) || n == 0x2028 || n == 0x2029 || n == 0x202F || n == 0x205F || n == 0x3000

def trimStart (cs : List Char) : List Char := cs.dropWhile isBlank

def trimEnd (cs : List Char) : List Char := (cs.reverse.dropWhile isBlank).reverse

def trim (cs : List Char) : List Char := trimEnd (trimStart cs)

/-- The words of a text: its maximal runs of characters that are not blank. -/
def words (cs : List Char) : List (List Char) :=
  (cs.splitBy fun a b => isBlank a == isBlank b).filter fun run => run.any (!isBlank ·)

/-- A line without the carriage return that may close it. -/
def dropReturn (line : List Char) : List Char :=
  if line.getLast? = some '\r' then line.dropLast else line

/-- The lines of a text. A line feed ends a line, together with a carriage return right
    before it; what follows the last line feed is a line as it stands, if it is not empty. -/
def lines (cs : List Char) : List (List Char) :=
  let parts := cs.splitOn '\n'
  parts.dropLast.map dropReturn ++ (parts.getLast?.toList.filter (· ≠ []))

/-- The lines of a text with the line feeds that end them. -/
def wholeLines (cs : List Char) : List (List Char) :=
  let parts := cs.splitOn '\n'
  parts.dropLast.map (· ++ ['\n']) ++ (parts.getLast?.toList.filter (· ≠ []))

end Handheld.Text
