/-
  Handheld.Proofs.ByteViews — cells and bytes are two views of one memory.

  A cell at any address, on a boundary or not, is the number that the four bytes there make, the
  lowest first, read in two's complement (`cellOfBytes_of_le`). A store is seen by both views and
  outside its four bytes by neither. Every access asks first whether its range is in bounds, and
  where it is not it fails with its own address and length and leaves the memory alone
  (`FailsOutside`); the end of a range is computed without wrapping, so no address near the top of
  the 64 bits is taken for one in bounds.
-/

import Handheld.Proofs.Allocation

namespace Handheld

/-! ## Cells as numbers -/

/-- The number that bytes make, the lowest first. -/
def littleEndian : List UInt8 → Nat
  | [] => 0
  | b :: bs => b.toNat + 256 * littleEndian bs

/-- A number of 32 bits read in two's complement. -/
def twosComplement (n : Nat) : Int := if n < 2147483648 then n else n - 4294967296

theorem bmod_eq_twosComplement {n : Nat} (h : n < 4294967296) : Int.bmod n Int32.size = twosComplement n := by
  unfold twosComplement
  split <;> simp only [Int.bmod, Int32.size] <;> omega

theorem Cell.toInt_ofBytes (a b c d : UInt8) :
    (ofBytes a b c d).toInt = twosComplement (littleEndian [a, b, c, d]) := by
  have ha := a.toNat_lt
  have hb := b.toNat_lt
  have hc := c.toNat_lt
  have hd := d.toNat_lt
  have hsum : a.toNat + 256 * b.toNat + 65536 * c.toNat + 16777216 * d.toNat = littleEndian [a, b, c, d] := by
    simp only [littleEndian]
    omega
  have hlt : littleEndian [a, b, c, d] < 4294967296 := by omega
  rw [ofBytes, hsum, Int32.toInt_ofNat', bmod_eq_twosComplement hlt]

namespace Memory

variable {α : Type}

theorem signedAddr_toNat (a : UInt64) : signedAddr a.toNat = a.toInt64.toInt := by
  show Int.bmod a.toNat UInt64.size = a.toBitVec.toInt
  rw [BitVec.toInt_eq_toNat_bmod]
  rfl

/-! ## Ranges out of bounds -/

/-- The operation fails if and only if the range is not in bounds, with the address as a signed
    number and the length, and then leaves the memory as it was. -/
def FailsOutside (op : Op α) (a : UInt64) (len : Nat) : Prop :=
  ∀ m e m', op m = .error e m' ↔ m.capacity < a.toNat + len ∧ e = .outOfBounds a.toInt64.toInt len ∧ m' = m

/-- An operation that is guarded and then cannot fail. -/
theorem failsOutside_of_eq {op : Op α} {a : UInt64} {len : Nat} {value : Memory → α} {after : Memory → Memory}
    (h : ∀ m, op m =
      if m.inBounds a.toNat len then .ok (value m) (after m)
      else .error (.outOfBounds (signedAddr a.toNat) len) m) :
    FailsOutside op a len := by
  intro m e m'
  rw [h, signedAddr_toNat]
  by_cases hroom : m.inBounds a.toNat len = true
  · have hle := inBounds_iff.mp hroom
    rw [if_pos hroom]
    constructor
    · rintro ⟨⟩
    · rintro ⟨hlt, -⟩
      omega
  · have hlt := Nat.not_le.mp (mt inBounds_iff.mpr hroom)
    rw [if_neg hroom]
    constructor
    · rintro ⟨⟩
      exact ⟨hlt, rfl, rfl⟩
    · rintro ⟨-, rfl, rfl⟩
      rfl

theorem fetchByte_of_lt {a : Nat} {m : Memory} (h : a < m.capacity) : fetchByte a m = .ok (m.byteAt a) m := by
  rw [fetchByte_eq, if_pos (inBounds_iff.mpr h)]

/-! ## The two views -/

/-- The cell at an address and the four bytes there say the same. -/
def CellOfBytes (m : Memory) (a : Nat) : Prop :=
  ∃ v b₀ b₁ b₂ b₃, fetchCell a m = .ok v m ∧ fetchByte a m = .ok b₀ m ∧ fetchByte (a + 1) m = .ok b₁ m ∧
    fetchByte (a + 2) m = .ok b₂ m ∧ fetchByte (a + 3) m = .ok b₃ m ∧
    v.toInt = twosComplement (littleEndian [b₀, b₁, b₂, b₃])

theorem cellOfBytes_of_le {m : Memory} {a : Nat} (h : a + 4 ≤ m.capacity) : m.CellOfBytes a :=
  ⟨_, _, _, _, _, fetchCell_of_le h, fetchByte_of_lt (by omega), fetchByte_of_lt (by omega),
   fetchByte_of_lt (by omega),
    fetchByte_of_lt (by omega), Cell.toInt_ofBytes ..⟩

theorem storeCell_ok_iff {m m' : Memory} {a : Nat} {v : Cell} :
    storeCell a v m = .ok () m' ↔ a + 4 ≤ m.capacity ∧ m' = m.setBytes a v.toBytes := by
  constructor
  · exact storeCell_ok
  · rintro ⟨hroom, rfl⟩
    rw [storeCell_eq, if_pos (inBounds_iff.mpr hroom)]

theorem fetchCell_setBytes {m : Memory} {a : Nat} (v : Cell) (h : a + 4 ≤ m.capacity) :
    fetchCell a (m.setBytes a v.toBytes) = .ok v (m.setBytes a v.toBytes) := by
  have hcell : (m.setBytes a v.toBytes).cellAt a = v := (holds_setBytes m a v.toBytes).cellAt
  rw [fetchCell_of_le (by rw [capacity_setBytes]; exact h), hcell]

/-- Bytes outside a store read as before it. -/
theorem Stores.fetchByte_iff {m m' : Memory} {a len : Nat} (h : Stores a len m m') {c : Nat}
    (hc : c < a ∨ a + len ≤ c) (x : UInt8) :
    fetchByte c m' = .ok x m' ↔ fetchByte c m = .ok x m := by
  have hbyte : m'.byteAt c = m.byteAt c := h.outside c hc
  have hroom : m'.inBounds c 1 = m.inBounds c 1 := by rw [inBounds, inBounds, h.capacity]
  rw [fetchByte_eq, fetchByte_eq, hroom, hbyte]
  split <;> simp

/-- A cell is stored at any address whose four bytes are in bounds, and at no other. It is then read
    back, no other byte has changed, and at every address, also one whose bytes the store overlaps in
    part, the cell is what the bytes say. An access out of bounds says where it was and does nothing. -/
theorem cells_and_bytes_agree (m : Memory) (a len : UInt64) (v : Cell) (x : UInt8) :
    ((∃ m', storeCell a.toNat v m = .ok () m') ↔ a.toNat + 4 ≤ m.capacity) ∧
    (∀ m', storeCell a.toNat v m = .ok () m' →
      fetchCell a.toNat m' = .ok v m' ∧ m'.here = m.here ∧ m'.capacity = m.capacity ∧
      (∀ c y, c < a.toNat ∨ a.toNat + 4 ≤ c → (fetchByte c m' = .ok y m' ↔ fetchByte c m = .ok y m)) ∧
      ∀ b : UInt64, b.toNat + 4 ≤ m.capacity → m'.CellOfBytes b.toNat) ∧
    FailsOutside (fetchByte a.toNat) a 1 ∧ FailsOutside (storeByte a.toNat x) a 1 ∧
    FailsOutside (fetchCell a.toNat) a 4 ∧ FailsOutside (storeCell a.toNat v) a 4 ∧
    FailsOutside (fetchBytes a.toNat len.toNat) a len.toNat := by
  refine ⟨?_, ?_, failsOutside_of_eq (fetchByte_eq _), failsOutside_of_eq (storeByte_eq _ _),
      failsOutside_of_eq (fetchCell_eq _),
    failsOutside_of_eq (storeCell_eq _ _), failsOutside_of_eq (fetchBytes_eq _ _)⟩
  · simp only [storeCell_ok_iff, exists_and_left, exists_eq, and_true]
  · intro m' hstore
    obtain ⟨hroom, rfl⟩ := storeCell_ok_iff.mp hstore
    have hstores : Stores a.toNat 4 m (m.setBytes a.toNat v.toBytes) := setBytes_stores m a.toNat v.toBytes
    refine ⟨fetchCell_setBytes v hroom, hstores.here, hstores.capacity,
        fun c y hc => hstores.fetchByte_iff hc y, fun b hb => ?_⟩
    exact cellOfBytes_of_le (by rw [hstores.capacity]; exact hb)

/-- A store across a boundary in a memory of eight bytes, and one at the last address of all. -/
theorem cells_and_bytes_agree_overlapping :
    (∃ m, storeCell 2 (-2) (empty 8) = .ok () m ∧ fetchCell 2 m = .ok (-2) m ∧
      (fetchByte 6 m = .ok 0 m ↔ fetchByte 6 (empty 8) = .ok 0 (empty 8)) ∧ m.CellOfBytes 1) ∧
    storeCell 18446744073709551615 1 (empty 8) = .error (.outOfBounds (-1) 4) (empty 8) := by
  have hroom : (2 : UInt64).toNat + 4 ≤ (empty 8).capacity := by decide
  constructor
  · obtain ⟨hstores, hstored, -⟩ := cells_and_bytes_agree (empty 8) 2 0 (-2) 0
    obtain ⟨m, hm⟩ := hstores.mpr hroom
    obtain ⟨hcell, -, -, houtside, hviews⟩ := hstored m hm
    exact ⟨m, hm, hcell, houtside 6 0 (by decide), hviews 1 (by decide)⟩
  · obtain ⟨-, -, -, -, -, hstore, -⟩ := cells_and_bytes_agree (empty 8) 18446744073709551615 0 1 0
    exact (hstore (empty 8) _ (empty 8)).mpr ⟨by decide, by decide, rfl⟩

end Memory

end Handheld
