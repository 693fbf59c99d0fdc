/-
  Handheld.Text.Hex — hexadecimal digits.

  Digits are written in lower case and read in either.
-/

namespace Handheld.Hex

/-- The digit that a number ends in. -/
def last (n : Nat) : Fin 16 := ⟨n % 16, Nat.mod_lt n (by decide)⟩

def digit? (c : Char) : Option (Fin 16) :=
  if '0' ≤ c ∧ c ≤ '9' then some (last (c.toNat - '0'.toNat))
  else if 'a' ≤ c ∧ c ≤ 'f' then some (last (c.toNat - 'a'.toNat + 10))
  else if 'A' ≤ c ∧ c ≤ 'F' then some (last (c.toNat - 'A'.toNat + 10))
  else none

def char (d : Fin 16) : Char :=
  if d.val < 10 then Char.ofNat ('0'.toNat + d.val) else Char.ofNat ('a'.toNat + (d.val - 10))

/-- The digits of a text; everything else is passed over. -/
def digits (cs : List Char) : List (Fin 16) := cs.filterMap digit?

/-- A byte as two digits. -/
def ofByte (b : UInt8) : List Char := [char (last (b.toNat / 16)), char (last b.toNat)]

/-- Digits taken two by two; a last one that stands alone is a byte too. -/
def bytes : List (Fin 16) → List UInt8
  | [] => []
  | [d] => [UInt8.ofNat d.val]
  | d :: e :: rest => UInt8.ofNat (16 * d.val + e.val) :: bytes rest

end Handheld.Hex
