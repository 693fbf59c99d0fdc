/-
  Handheld.Machine.Output — the bounded text a program has printed.

  The capacity counts UTF-8 bytes. A piece of text is appended whole or not at all. A number
  is written as up to three pieces, its minus sign, its digits and a blank, so that a full
  buffer can keep the first of them.
-/

import Handheld.Machine.Cell
import Handheld.Text.Decimal
import Handheld.Text.Utf8

namespace Handheld

inductive OutputFault where
  | full
  | format
  deriving DecidableEq

def OutputFault.message : OutputFault → String
  | .full => "output buffer is full"
  | .format => "failed to format output"

def OutputFault.inspect : OutputFault → String
  | .full => "OutputFull"
  | .format => "FormattingErr"

structure Output where
  capacity : Nat
  text : String

namespace Output

def empty (capacity : Nat) : Output := ⟨capacity, ""⟩

def clear (o : Output) : Output := { o with text := "" }

/-- How many more bytes fit. -/
def room (o : Output) : Nat := o.capacity - o.text.utf8ByteSize

abbrev Op := EStateM OutputFault Output

def write (s : String) : Op Unit := fun o =>
  if o.text.utf8ByteSize + s.utf8ByteSize ≤ o.capacity then .ok () { o with text := o.text ++ s }
  else .error .full o

def writeBytes (bytes : List UInt8) : Op Unit := write (Text.ofUtf8 bytes)

def numberPieces (v : Cell) : List String :=
  (if v < 0 then ["-"] else []) ++ [Text.showNat v.toInt.natAbs, " "]

/-- Writes pieces until one does not fit. -/
def writePieces : List String → Op Unit
  | [] => pure ()
  | piece :: pieces => fun o =>
    match write piece o with
    | .ok _ o => writePieces pieces o
    | .error _ o => .error .format o

def print (v : Cell) : Op Unit := writePieces (numberPieces v)

/-- More bytes than there is room for are refused, whatever they say. -/
theorem writeBytes_of_room_lt {o : Output} {bytes : List UInt8} (h : o.room < bytes.length) :
    writeBytes bytes o = .error .full o := by
  have hl := Text.length_le_utf8ByteSize_ofUtf8 bytes
  unfold room at h
  exact if_neg (by omega)

end Output

end Handheld
