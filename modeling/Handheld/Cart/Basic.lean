/-
  Handheld.Cart.Basic — a program with its sprites and sounds in one text.

  The assets follow the source inside one comment, so the whole text still reads as the
  program. Each section begins after the first line of its kind; the source ends before the
  last opening parenthesis that comes before the sprites.
-/

import Handheld.Cart.SoundBank
import Handheld.Cart.SpriteSheet

namespace Handheld

structure Cart where
  source : String
  sprites : SpriteSheet
  sounds : SoundBank
  deriving DecidableEq

namespace Cart

def spriteMark : List Char := "\n--SPRITE DATA------\n".toList

def soundMark : List Char := "\n--SOUND DATA--------\n".toList

/-- The first place of `mark` in the text, counted from `i`. -/
def findFrom (mark : List Char) (i : Nat) : List Char → Option Nat
  | [] => none
  | c :: cs => if mark.isPrefixOf (c :: cs) then some i else findFrom mark (i + 1) cs

/-- The first place of a mark, which is not empty. -/
def find? (mark text : List Char) : Option Nat := findFrom mark 0 text

def ofSource (source : String) : Cart := ⟨source, .blank, .silent⟩

/-- What comes before the last opening parenthesis; nothing, if there is none. -/
def beforeComment (cs : List Char) : List Char := ((cs.reverse.dropWhile (· ≠ '(')).drop 1).reverse

/-- Reads a text that has both sections. -/
def parse (text : String) : Except CartFault Cart :=
  let cs := text.toList
  match find? spriteMark cs, find? soundMark cs with
  | some spriteAt, some soundAt =>
    let spritesStart := spriteAt + spriteMark.length
    if soundAt < spritesStart then .error .misorderedAssets
    else do
      let sprites ← SpriteSheet.decode ((cs.take soundAt).drop spritesStart)
      let sounds := SoundBank.decode (cs.drop (soundAt + soundMark.length))
      return ⟨String.ofList (beforeComment (cs.take spriteAt)), sprites, sounds⟩
  | _, _ => .error .missingAssets

/-- Reads a text; one without any section is a program alone. -/
def parseOrSource (text : String) : Except CartFault Cart :=
  if (find? spriteMark text.toList).isNone && (find? soundMark text.toList).isNone then .ok (ofSource text)
  else parse text

def toText (c : Cart) : String :=
  c.source ++ "(" ++ String.ofList spriteMark ++ c.sprites.encode ++ String.ofList soundMark ++
    c.sounds.encode ++ "\n)\n"

end Cart

end Handheld
