/-
  Handheld.Machine.Cell — the 32-bit two's-complement word the machine computes with.

  Arithmetic wraps, division goes toward zero, flags are all ones or zero. In memory a cell
  is four bytes, the lowest first.
-/

namespace Handheld

abbrev Cell := Int32

namespace Cell

def flag (b : Bool) : Cell := if b then -1 else 0

/-- The cell as a count or an index, if it is not negative. -/
def toNat? (v : Cell) : Option Nat := if v < 0 then none else some v.toNatClampNeg

/-- The largest number that is a cell. -/
def maxNat : Nat := 2147483647

/-- The number as a cell, if it is in range. -/
def ofNat? (n : Nat) : Option Cell := if n ≤ maxNat then some (Int32.ofNat n) else none

/-- The number as a cell, if it is in range. -/
def ofInt? (v : Int) : Option Cell :=
  if -2147483648 ≤ v ∧ v ≤ 2147483647 then some (Int32.ofInt v) else none

/-- Shifting by a negative count or by 32 and more leaves nothing. -/
def shiftLeft (a n : Cell) : Cell :=
  if 0 ≤ n ∧ n < 32 then (a.toUInt32 <<< n.toUInt32).toInt32 else 0

/-- The shift to the right fills with zeros. -/
def shiftRight (a n : Cell) : Cell :=
  if 0 ≤ n ∧ n < 32 then (a.toUInt32 >>> n.toUInt32).toInt32 else 0

def toBytes (v : Cell) : List UInt8 :=
  let n := v.toUInt32.toNat
  [UInt8.ofNat n, UInt8.ofNat (n / 256), UInt8.ofNat (n / 65536), UInt8.ofNat (n / 16777216)]

def ofBytes (a b c d : UInt8) : Cell :=
  Int32.ofNat (a.toNat + 256 * b.toNat + 65536 * c.toNat + 16777216 * d.toNat)

def lowByte (v : Cell) : UInt8 := v.toUInt32.toUInt8

theorem ofNat_toNat (v : Cell) : Int32.ofNat v.toUInt32.toNat = v := by
  apply Int32.toBitVec_inj.mp
  simp

@[simp] theorem length_toBytes (v : Cell) : v.toBytes.length = 4 := rfl

/-- A cell is what its four bytes say. -/
theorem ofBytes_toBytes {v : Cell} {a b c d : UInt8} (h : v.toBytes = [a, b, c, d]) :
    ofBytes a b c d = v := by
  have hv := v.toUInt32.toNat_lt
  simp only [toBytes, List.cons.injEq, and_true] at h
  obtain ⟨rfl, rfl, rfl, rfl⟩ := h
  rw [← ofNat_toNat v, ofBytes]
  congr 1
  simp only [UInt8.toNat_ofNat', ofNat_toNat]
  omega

end Cell

end Handheld
