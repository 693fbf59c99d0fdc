/-
  Handheld.Text.Decimal — whole numbers in decimal.

  A numeral is one or more of the ASCII digits; leading zeros are allowed. A sign is a
  single character before the first digit.
-/

namespace Handheld.Text

def digitValue? (c : Char) : Option Nat :=
  if '0' ≤ c ∧ c ≤ '9' then some (c.toNat - '0'.toNat) else none

/-- Reads digits after those that gave `acc`. -/
def readDigits? (acc : Nat) : List Char → Option Nat
  | [] => some acc
  | c :: cs => match digitValue? c with
    | none => none
    | some d => readDigits? (10 * acc + d) cs

/-- An unsigned numeral: at least one digit and nothing else. -/
def readNat? (cs : List Char) : Option Nat :=
  if cs.isEmpty then none else readDigits? 0 cs

/-- A numeral with an optional minus sign. -/
def readInt? : List Char → Option Int
  | '-' :: cs => (readNat? cs).map fun n => -(n : Int)
  | cs => (readNat? cs).map fun n => (n : Int)

def showNat (n : Nat) : String := String.ofList (Nat.toDigits 10 n)

def showInt (v : Int) : String := if v < 0 then "-" ++ showNat v.natAbs else showNat v.natAbs

/-- A list in square brackets. -/
def showList (items : List String) : String := "[" ++ String.intercalate ", " items ++ "]"

end Handheld.Text
