/-
  Handheld.Cart.SoundBank — thirty-two sound effects.

  An effect is the duration of a note and a pitch and an amplitude for each of 32 notes. As
  text an effect is one line of its 65 bytes in hexadecimal, and the silent effects at the end
  are left out. Reading takes the digits alone, two to a byte, and gives them to the effects of a
  silent bank in order; where they end inside an effect the rest of it is zero.
-/

import Handheld.Text.Hex

namespace Handheld

structure SoundEffect where
  duration : UInt8
  pitches : Vector UInt8 32
  amplitudes : Vector UInt8 32
  deriving DecidableEq

namespace SoundEffect

def silent : SoundEffect := ⟨0, Vector.replicate 32 0, Vector.replicate 32 0⟩

def isSilent (e : SoundEffect) : Bool := e = silent

/-- The bytes of an effect in order. -/
def toBytes (e : SoundEffect) : List UInt8 := e.duration :: (e.pitches.toList ++ e.amplitudes.toList)

def encode (e : SoundEffect) : List Char := e.toBytes.flatMap Hex.ofByte

/-- Takes a byte for each of `n` notes in order, or zero once there are none left, and gives the
    bytes after them. -/
def readNotes : (n : Nat) → List UInt8 → Vector UInt8 n × List UInt8
  | 0, bytes => (#v[], bytes)
  | n + 1, bytes =>
    let (notes, rest) := readNotes n bytes
    (notes.push (rest.headD 0), rest.tail)

end SoundEffect

structure SoundBank where
  effects : Vector SoundEffect 32
  deriving DecidableEq

namespace SoundBank

def silent : SoundBank := ⟨Vector.replicate 32 .silent⟩

def get? (b : SoundBank) (i : Nat) : Option SoundEffect := b.effects[i]?

def set (b : SoundBank) (i : Nat) (e : SoundEffect) : SoundBank := ⟨b.effects.setIfInBounds i e⟩

/-- How many effects can be heard. -/
def soundingCount (b : SoundBank) : Nat := b.effects.toList.countP (!·.isSilent)

/-- The effects up to the last that can be heard. -/
def used (b : SoundBank) : List SoundEffect := (b.effects.toList.reverse.dropWhile (·.isSilent)).reverse

def encode (b : SoundBank) : String := String.ofList (List.intercalate ['\n'] (b.used.map SoundEffect.encode))

/-- Gives the effects their bytes, one effect after the other: the duration, the pitches, the
    amplitudes. An effect for which no byte is left ends the reading. -/
def fill : List SoundEffect → List UInt8 → List SoundEffect
  | [], _ => []
  | e :: effects, [] => e :: effects
  | _ :: effects, duration :: bytes =>
    let (pitches, bytes) := SoundEffect.readNotes 32 bytes
    let (amplitudes, bytes) := SoundEffect.readNotes 32 bytes
    ⟨duration, pitches, amplitudes⟩ :: fill effects bytes

@[simp] theorem length_fill (effects : List SoundEffect) (bytes : List UInt8) :
    (fill effects bytes).length = effects.length := by
  induction effects generalizing bytes with
  | nil => rfl
  | cons e effects ih =>
    cases bytes with
    | nil => rfl
    | cons duration bytes => simp [fill, ih]

def decode (cs : List Char) : SoundBank :=
  ⟨⟨(fill silent.effects.toList (Hex.bytes (Hex.digits cs))).toArray, by simp⟩⟩

end SoundBank

end Handheld
