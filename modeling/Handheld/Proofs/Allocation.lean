/-
  Handheld.Proofs.Allocation — what writing and allocating do to a memory.

  A memory is valid when the free end is inside it and every address in it is a cell. All that
  a program or the compiler does to a memory is one of two things. An allocation appends bytes
  at the free end (`Appends`) and touches nothing below it; where it fails it may still have
  moved the free end, and `Grows` says what holds all the same. A store changes the bytes it is
  aimed at and no others.
-/

import Handheld.Machine.Memory
import Handheld.Proofs.Outcome

namespace Handheld

/-! ## Cells and numbers -/

namespace Cell

theorem toInt_ofNat {n : Nat} (h : n ≤ maxNat) : (Int32.ofNat n).toInt = n := by
  rw [Int32.toInt_ofNat_of_lt (by unfold maxNat at h; omega)]

/-- A cell that is not negative is the number it stands for. -/
theorem toNat?_eq (v : Cell) : v.toNat? = if v.toInt < 0 then none else some v.toInt.toNat := by
  have hsign : v < 0 ↔ v.toInt < 0 := Int32.lt_iff_toInt_lt
  have hclamp : v.toNatClampNeg = v.toInt.toNat := rfl
  simp only [toNat?, hsign, hclamp]

@[simp] theorem toNat?_ofNat {n : Nat} (h : n ≤ maxNat) : toNat? (Int32.ofNat n) = some n := by
  rw [toNat?_eq, toInt_ofNat h, if_neg (by omega), Int.toNat_natCast]

theorem ofNat?_eq_some {n : Nat} {v : Cell} (h : ofNat? n = some v) : n ≤ maxNat ∧ v = Int32.ofNat n := by
  unfold ofNat? at h
  split at h
  · exact ⟨‹_›, (Option.some.inj h).symm⟩
  · cases h

theorem ofNat?_of_le {n : Nat} (h : n ≤ maxNat) : ofNat? n = some (Int32.ofNat n) := if_pos h

end Cell

namespace Memory

theorem cellOfAddr_of_le {a : Nat} (h : a ≤ Cell.maxNat) : cellOfAddr a = .ok (Int32.ofNat a) := by
  rw [cellOfAddr, Cell.ofNat?_of_le h]

theorem cellOfAddr_eq_ok {a : Nat} {v : Cell} (h : cellOfAddr a = .ok v) :
    a ≤ Cell.maxNat ∧ v = Int32.ofNat a := by
  unfold cellOfAddr at h
  split at h
  · next w hw => cases h; exact Cell.ofNat?_eq_some hw
  · cases h

theorem addrOfCell_ofNat {a : Nat} (h : a ≤ Cell.maxNat) : addrOfCell (Int32.ofNat a) = .ok a := by
  rw [addrOfCell, Cell.toNat?_ofNat h]

/-! ## Valid memories -/

/-- The free end is inside the memory, and every address in it is a cell. -/
structure Valid (m : Memory) : Prop where
  here_le : m.here ≤ m.capacity
  capacity_le : m.capacity ≤ Cell.maxNat

theorem Valid.here_le_maxNat {m : Memory} (h : m.Valid) : m.here ≤ Cell.maxNat :=
  Nat.le_trans h.here_le h.capacity_le

theorem valid_empty (capacity : Nat) : (empty capacity).Valid := ⟨Nat.zero_le _, Nat.min_le_right ..⟩

theorem aligned_of_le {a : Nat} (h : a ≤ Cell.maxNat) : aligned a = (a + 3) / 4 * 4 := by
  unfold aligned UInt64.size
  unfold Cell.maxNat at h
  omega

theorem le_aligned {a : Nat} (h : a ≤ Cell.maxNat) : a ≤ aligned a := by rw [aligned_of_le h]; omega

theorem aligned_lt {a : Nat} (h : a ≤ Cell.maxNat) : aligned a < a + 4 := by rw [aligned_of_le h]; omega

theorem dvd_aligned (a : Nat) : 4 ∣ aligned a := by unfold aligned UInt64.size; omega

theorem aligned_eq_self {a : Nat} (h : a ≤ Cell.maxNat) (hd : 4 ∣ a) : aligned a = a := by
  rw [aligned_of_le h]; omega

/-! ## Ranges of bytes -/

theorem slice_add (m : Memory) (a x y : Nat) : m.slice a (x + y) = m.slice a x ++ m.slice (a + x) y := by
  rw [slice, slice, slice, ← List.map_append, List.range'_append_1]

theorem slice_congr {m m' : Memory} {a n : Nat} (h : ∀ b, a ≤ b → b < a + n → m'.byteAt b = m.byteAt b) :
    m'.slice a n = m.slice a n := by
  unfold slice
  refine List.map_congr_left fun b hb => ?_
  simp only [List.mem_range'_1] at hb
  exact h b hb.1 hb.2

/-- The bytes stand at the address. -/
def Holds (m : Memory) (a : Nat) (bytes : List UInt8) : Prop := m.slice a bytes.length = bytes

/-- Two pieces, one after the other, stand each at its own place. -/
theorem holds_append {m : Memory} {a : Nat} {xs ys : List UInt8} :
    m.Holds a (xs ++ ys) ↔ m.Holds a xs ∧ m.Holds (a + xs.length) ys := by
  unfold Holds
  rw [List.length_append, slice_add]
  exact ⟨fun h => List.append_inj h (by simp), fun h => by rw [h.1, h.2]⟩

theorem Holds.congr {m m' : Memory} {a : Nat} {bytes : List UInt8} (h : m.Holds a bytes)
    (hb : ∀ b, a ≤ b → b < a + bytes.length → m'.byteAt b = m.byteAt b) : m'.Holds a bytes :=
  (slice_congr hb).trans h

theorem Holds.cellAt {m : Memory} {a : Nat} {v : Cell} (h : m.Holds a v.toBytes) : m.cellAt a = v :=
  Cell.ofBytes_toBytes (Eq.symm h)

/-! ## Growing -/

/-- What any number of allocations leave: the same memory with the free end further up and
    nothing below the old one changed. -/
structure Grows (m m' : Memory) : Prop where
  capacity : m'.capacity = m.capacity
  here_le : m.here ≤ m'.here
  inside : m.here ≤ m.capacity → m'.here ≤ m'.capacity
  below : ∀ b < m.here, m'.byteAt b = m.byteAt b

theorem Grows.ordered : Ordered Grows where
  refl _ := ⟨rfl, Nat.le_refl _, id, fun _ _ => rfl⟩
  trans h g :=
    ⟨g.capacity.trans h.capacity, Nat.le_trans h.here_le g.here_le, fun hi => g.inside (h.inside hi),
      fun b hb => (g.below b (Nat.lt_of_lt_of_le hb h.here_le)).trans (h.below b hb)⟩

theorem Grows.valid {m m' : Memory} (h : Grows m m') (hv : m.Valid) : m'.Valid :=
  ⟨h.inside hv.here_le, h.capacity ▸ hv.capacity_le⟩

/-- What stands below the free end stays. -/
theorem Grows.holds {m m' : Memory} (h : Grows m m') {a : Nat} {bytes : List UInt8} (hb : m.Holds a bytes)
    (ha : a + bytes.length ≤ m.here) : m'.Holds a bytes :=
  hb.congr fun b _ hlt => h.below b (by omega)

/-- The memory with some bytes appended at its free end. -/
structure Appends (m : Memory) (bytes : List UInt8) (m' : Memory) : Prop extends Grows m m' where
  here : m'.here = m.here + bytes.length
  appended : m'.Holds m.here bytes

theorem Appends.trans {m m₁ m₂ : Memory} {xs ys : List UInt8} (h : Appends m xs m₁) (g : Appends m₁ ys m₂) :
    Appends m (xs ++ ys) m₂ where
  toGrows := Grows.ordered.trans h.toGrows g.toGrows
  here := by rw [g.here, h.here, List.length_append, Nat.add_assoc]
  appended :=
    holds_append.mpr ⟨g.holds h.appended (Nat.le_of_eq h.here.symm), by rw [← h.here]; exact g.appended⟩

/-- Bytes that ended where the appended ones begin now end with them. -/
theorem Appends.holds_append {m m' : Memory} {xs ys : List UInt8} (h : Appends m ys m') {a : Nat}
    (hx : m.Holds a xs) (ha : a + xs.length = m.here) : m'.Holds a (xs ++ ys) :=
  Memory.holds_append.mpr ⟨h.holds hx (by omega), by rw [ha]; exact h.appended⟩

/-! ## The operations -/

theorem bump_eq (len : Nat) (m : Memory) :
    bump len m = if len ≤ m.available then .ok m.here { m.zero m.here len with here := m.here + len }
      else .error (.exhausted len m.available) m := rfl

theorem bump_appends {m m' : Memory} {len a : Nat} (h : bump len m = .ok a m') :
    a = m.here ∧ Appends m (List.replicate len 0) m' := by
  rw [bump_eq] at h
  split at h
  · next hl =>
    cases h
    unfold available at hl
    refine ⟨rfl, ⟨rfl, Nat.le_add_right .., fun hi => ?_, fun b hb => ?_⟩, by simp, ?_⟩
    · show m.here + len ≤ m.capacity
      omega
    · show (m.zero m.here len).byteAt b = _
      rw [byteAt_zero, if_neg (by omega)]
    · show ((List.range' m.here (List.replicate len 0).length).map (m.zero m.here len).byteAt) = _
      rw [List.length_replicate, List.map_eq_replicate_iff.mpr, List.length_range']
      intro b hb
      simp only [List.mem_range'_1] at hb
      rw [byteAt_zero, if_pos hb]
  · cases h

theorem bump_error {m m' : Memory} {len : Nat} {e : MemoryFault} (h : bump len m = .error e m') : m' = m := by
  rw [bump_eq] at h
  split at h
  · cases h
  · cases h; rfl

theorem lt_of_bump_error {m m' : Memory} {len : Nat} {e : MemoryFault} (h : bump len m = .error e m') :
    m.capacity < m.here + len := by
  rw [bump_eq] at h
  split at h
  · cases h
  · next hroom =>
    unfold available at hroom
    omega

theorem le_of_bump_ok {m m' : Memory} {len a : Nat} (h : bump len m = .ok a m') : len ≤ m.available := by
  rw [bump_eq] at h
  split at h
  · assumption
  · cases h

theorem keeps_bump (len : Nat) : Keeps Grows (bump len) := by
  intro m
  rcases h : bump len m with ⟨a, m'⟩ | ⟨e, m'⟩
  · rw [stateAfter_ok h]; exact (bump_appends h).2.toGrows
  · rw [stateAfter_error h, bump_error h]; exact Grows.ordered.refl m

theorem align_eq (m : Memory) : align m = discard (bump (aligned m.here - m.here)) m := rfl

theorem keeps_align : Keeps Grows align := by
  intro m
  show Grows m (stateAfter (discard (bump (aligned m.here - m.here))) m)
  exact Keeps.discard Grows.ordered (keeps_bump _) m

theorem align_appends {m m' : Memory} (h : align m = .ok () m') :
    Appends m (List.replicate (aligned m.here - m.here) 0) m' := by
  rw [align_eq, discard_ok_iff] at h
  obtain ⟨a, h⟩ := h
  exact (bump_appends h).2

theorem align_error {m m' : Memory} {e : MemoryFault} (h : align m = .error e m') : m' = m := by
  rw [align_eq, discard_eq] at h
  rcases bind_error_iff.mp h with h | ⟨a, m₁, -, h⟩
  · exact bump_error h
  · cases h

theorem here_align {m m' : Memory} (hv : m.Valid) (h : align m = .ok () m') : m'.here = aligned m.here := by
  rw [(align_appends h).here, List.length_replicate]
  have := le_aligned hv.here_le_maxNat
  omega

theorem guardRange_eq (a len : Nat) (m : Memory) :
    guardRange a len m =
      if m.inBounds a len then .ok () m else .error (.outOfBounds (signedAddr a) len) m := rfl

theorem inBounds_iff {m : Memory} {a len : Nat} : m.inBounds a len = true ↔ a + len ≤ m.capacity :=
  decide_eq_true_iff

/-- A guarded operation on a range fails with its address and length, or does what it says. -/
theorem guarded_eq {α : Type} (a len : Nat) (op : Op α) (m : Memory) :
    (guardRange a len >>= fun _ => op) m =
      if m.inBounds a len then op m else .error (.outOfBounds (signedAddr a) len) m := by
  by_cases h : m.inBounds a len = true
  · rw [if_pos h]; exact bind_of_ok (by rw [guardRange_eq, if_pos h])
  · rw [if_neg h]; exact bind_of_error (by rw [guardRange_eq, if_neg h])

theorem fetchByte_eq (a : Nat) (m : Memory) :
    fetchByte a m = if m.inBounds a 1 then .ok (m.byteAt a) m else .error (.outOfBounds (signedAddr a) 1) m :=
  guarded_eq ..

theorem fetchCell_eq (a : Nat) (m : Memory) :
    fetchCell a m = if m.inBounds a 4 then .ok (m.cellAt a) m else .error (.outOfBounds (signedAddr a) 4) m :=
  guarded_eq ..

theorem fetchBytes_eq (a len : Nat) (m : Memory) :
    fetchBytes a len m =
      if m.inBounds a len then .ok (m.slice a len) m else .error (.outOfBounds (signedAddr a) len) m :=
  guarded_eq ..

theorem storeByte_eq (a : Nat) (v : UInt8) (m : Memory) :
    storeByte a v m =
      if m.inBounds a 1 then .ok () (m.setByte a v) else .error (.outOfBounds (signedAddr a) 1) m :=
  guarded_eq ..

theorem storeCell_eq (a : Nat) (v : Cell) (m : Memory) :
    storeCell a v m =
      if m.inBounds a 4 then .ok () (m.setBytes a v.toBytes)
      else .error (.outOfBounds (signedAddr a) 4) m :=
  guarded_eq ..

theorem fetchCell_of_le {a : Nat} {m : Memory} (h : a + 4 ≤ m.capacity) :
    fetchCell a m = .ok (m.cellAt a) m := by
  rw [fetchCell_eq, if_pos (inBounds_iff.mpr h)]

/-! ## Stores -/

/-- What a store leaves: the same memory but for the bytes from `a` to `a + len`. -/
structure Stores (a len : Nat) (m m' : Memory) : Prop where
  capacity : m'.capacity = m.capacity
  here : m'.here = m.here
  outside : ∀ b, b < a ∨ a + len ≤ b → m'.byteAt b = m.byteAt b

theorem setBytes_stores (m : Memory) (a : Nat) (vs : List UInt8) :
    Stores a vs.length m (m.setBytes a vs) where
  capacity := capacity_setBytes ..
  here := here_setBytes ..
  outside b hb := by
    rw [byteAt_setBytes]
    split
    · rw [List.getD_eq_getElem?_getD, List.getElem?_eq_none (by omega), Option.getD_none]
    · rfl

theorem holds_setBytes (m : Memory) (a : Nat) (vs : List UInt8) : (m.setBytes a vs).Holds a vs := by
  apply List.ext_getElem (by simp)
  intro i h₁ h₂
  simp only [slice, List.getElem_map, List.getElem_range', byteAt_setBytes]
  rw [if_pos (by omega), Nat.one_mul, Nat.add_sub_cancel_left, List.getD_eq_getElem?_getD,
    List.getElem?_eq_getElem h₂, Option.getD_some]

theorem Stores.holds {a len : Nat} {m m' : Memory} (h : Stores a len m m') {b : Nat} {bytes : List UInt8}
    (hb : m.Holds b bytes) (hd : b + bytes.length ≤ a ∨ a + len ≤ b) : m'.Holds b bytes :=
  hb.congr fun _ _ _ => h.outside _ (by omega)

/-- A store changes the middle of what it is aimed at. -/
theorem Holds.setBytes {m : Memory} {a : Nat} {xs old ys : List UInt8} (h : m.Holds a (xs ++ (old ++ ys)))
    (new : List UInt8) (hl : new.length = old.length) :
    (m.setBytes (a + xs.length) new).Holds a (xs ++ (new ++ ys)) := by
  have hs := setBytes_stores m (a + xs.length) new
  obtain ⟨hx, h⟩ := holds_append.mp h
  obtain ⟨-, hy⟩ := holds_append.mp h
  refine holds_append.mpr ⟨hs.holds hx (.inl (Nat.le_refl _)), holds_append.mpr ⟨holds_setBytes .., ?_⟩⟩
  rw [hl]
  exact hs.holds hy (.inr (by omega))

/-! ## Appending cells and bytes -/

/-- Zeroed bytes that are written over at once count as the bytes written. -/
theorem Appends.setBytes {m m' : Memory} {n : Nat} {bytes : List UInt8}
    (h : Appends m (List.replicate n 0) m')
    (hn : bytes.length = n) : Appends m bytes (m'.setBytes m.here bytes) := by
  have hs := setBytes_stores m' m.here bytes
  refine ⟨⟨hs.capacity.trans h.capacity, ?_, fun hi => ?_, fun b hb => ?_⟩, ?_, holds_setBytes ..⟩
  · rw [hs.here]; exact h.here_le
  · rw [hs.here, hs.capacity]; exact h.inside hi
  · rw [hs.outside b (.inl hb), h.below b hb]
  · rw [hs.here, h.here, List.length_replicate, hn]

theorem bumpBytes_appends {m m' : Memory} {bytes : List UInt8} {a : Nat} (h : bumpBytes bytes m = .ok a m') :
    a = m.here ∧ Appends m bytes m' := by
  obtain ⟨a₁, m₁, hb, h⟩ := bind_ok_iff.mp h
  obtain ⟨rfl, hz⟩ := bump_appends hb
  cases h
  exact ⟨rfl, hz.setBytes rfl⟩

theorem storeCell_ok {m m' : Memory} {a : Nat} {v : Cell} (h : storeCell a v m = .ok () m') :
    a + 4 ≤ m.capacity ∧ m' = m.setBytes a v.toBytes := by
  rw [storeCell_eq] at h
  split at h
  · next hb => cases h; exact ⟨inBounds_iff.mp hb, rfl⟩
  · cases h

theorem storeCell_error {m m' : Memory} {a : Nat} {v : Cell} {e : MemoryFault}
    (h : storeCell a v m = .error e m') : m' = m := by
  rw [storeCell_eq] at h
  split at h <;> cases h
  rfl

theorem storeByte_ok {m m' : Memory} {a : Nat} {v : UInt8} (h : storeByte a v m = .ok () m') :
    a + 1 ≤ m.capacity ∧ m' = m.setByte a v := by
  rw [storeByte_eq] at h
  split at h
  · next hb => cases h; exact ⟨inBounds_iff.mp hb, rfl⟩
  · cases h

theorem storeByte_error {m m' : Memory} {a : Nat} {v : UInt8} {e : MemoryFault}
    (h : storeByte a v m = .error e m') : m' = m := by
  rw [storeByte_eq] at h
  split at h <;> cases h
  rfl

/-- A cell appended stands at the next cell boundary, with zeros before it. -/
theorem bumpCell_appends {m m' : Memory} {v : Cell} {a : Nat} (h : bumpCell v m = .ok a m') :
    a = m.here + (aligned m.here - m.here) ∧
    Appends m (List.replicate (aligned m.here - m.here) 0 ++ v.toBytes) m' := by
  obtain ⟨_, m₁, ha, h⟩ := bind_ok_iff.mp h
  obtain ⟨b, m₂, hb, h⟩ := bind_ok_iff.mp h
  obtain ⟨_, m₃, hs, h⟩ := bind_ok_iff.mp h
  cases h
  have hpad := align_appends ha
  obtain ⟨rfl, hz⟩ := bump_appends hb
  obtain ⟨-, rfl⟩ := storeCell_ok hs
  exact ⟨by rw [hpad.here, List.length_replicate], hpad.trans (hz.setBytes rfl)⟩

/-- A cell finds no room before its boundary, or has reached it and finds no room there. -/
theorem bumpCell_error {m m' : Memory} {v : Cell} {e : MemoryFault} (h : bumpCell v m = .error e m') :
    align m = .error e m' ∨ align m = .ok () m' ∧ m'.capacity < m'.here + 4 := by
  rcases bind_error_iff.mp h with ha | ⟨_, m₁, ha, h⟩
  · exact .inl ha
  rcases bind_error_iff.mp h with hb | ⟨a, m₂, hb, h⟩
  · obtain rfl := bump_error hb
    exact .inr ⟨ha, lt_of_bump_error hb⟩
  -- The store is aimed at bytes that were just taken, so it cannot fail.
  · obtain ⟨rfl, hz⟩ := bump_appends hb
    have hroom : m₁.here + 4 ≤ m₂.capacity := by
      have hle := le_of_bump_ok hb
      rw [hz.capacity]
      unfold available cellSize at hle
      omega
    have hstore : storeCell m₁.here v m₂ = .ok () (m₂.setBytes m₁.here v.toBytes) := by
      rw [storeCell_eq, if_pos (inBounds_iff.mpr hroom)]
    rw [bind_of_ok hstore] at h
    cases h

/-- At a cell boundary a cell is appended just there. -/
theorem bumpCell_appends_aligned {m m' : Memory} {v : Cell} {a : Nat} (hv : m.Valid) (hd : 4 ∣ m.here)
    (h : bumpCell v m = .ok a m') : a = m.here ∧ Appends m v.toBytes m' := by
  have hp : aligned m.here - m.here = 0 := by rw [aligned_eq_self hv.here_le_maxNat hd, Nat.sub_self]
  simpa [hp] using bumpCell_appends h

/-! ## Every operation keeps what allocations and stores keep -/

section

variable {R : Memory → Memory → Prop} (hr : Ordered R)

include hr

theorem keeps_guardRange (a len : Nat) : Keeps R (guardRange a len) := by
  intro m
  by_cases h : m.inBounds a len = true
  · rw [stateAfter_ok (show guardRange a len m = .ok () m by rw [guardRange_eq, if_pos h])]
    exact hr.refl m
  · rw [stateAfter_error (by rw [guardRange_eq, if_neg h])]
    exact hr.refl m

theorem keeps_fetchByte (a : Nat) : Keeps R (fetchByte a) :=
  .bind hr (keeps_guardRange hr a 1) fun _ => .bind hr (.get hr) fun _ => .pure hr _

theorem keeps_fetchCell (a : Nat) : Keeps R (fetchCell a) :=
  .bind hr (keeps_guardRange hr a 4) fun _ => .bind hr (.get hr) fun _ => .pure hr _

theorem keeps_fetchBytes (a len : Nat) : Keeps R (fetchBytes a len) :=
  .bind hr (keeps_guardRange hr a len) fun _ => .bind hr (.get hr) fun _ => .pure hr _

end

theorem keeps_bumpBytes (bytes : List UInt8) : Keeps Grows (bumpBytes bytes) := by
  intro m
  rcases h : bumpBytes bytes m with ⟨a, m'⟩ | ⟨e, m'⟩
  · rw [stateAfter_ok h]; exact (bumpBytes_appends h).2.toGrows
  · rw [stateAfter_error h]
    rcases bind_error_iff.mp h with h | ⟨a, m₁, -, h⟩
    · exact (keeps_bump _).of_error h
    · cases h

/-- A cell that finds no room may leave the boundary it would have stood at, and no more. -/
theorem keeps_bumpCell (v : Cell) : Keeps Grows (bumpCell v) := by
  intro m
  rcases h : bumpCell v m with ⟨a, m'⟩ | ⟨e, m'⟩
  · rw [stateAfter_ok h]; exact (bumpCell_appends h).2.toGrows
  · rw [stateAfter_error h]
    rcases bumpCell_error h with ha | ⟨ha, -⟩
    · exact keeps_align.of_error ha
    · exact keeps_align.of_ok ha

theorem keeps_allot (n : Cell) : Keeps Grows (allot n) := by
  unfold allot
  split
  · exact keeps_bump _
  · exact .throw Grows.ordered _

/-! ## Room -/

section

variable {m : Memory}

theorem bump_of_le {len : Nat} (h : m.here + len ≤ m.capacity) : ∃ m', bump len m = .ok m.here m' := by
  rw [bump_eq, if_pos (by unfold available; omega)]
  exact ⟨_, rfl⟩

theorem align_of_le (hv : m.Valid) (h : aligned m.here ≤ m.capacity) : ∃ m', align m = .ok () m' := by
  have hle := le_aligned hv.here_le_maxNat
  have hroom : m.here + (aligned m.here - m.here) ≤ m.capacity := by omega
  obtain ⟨m', hb⟩ := bump_of_le hroom
  exact ⟨m', by rw [align_eq, discard_eq, bind_of_ok hb]; rfl⟩

theorem bumpCell_of_le (v : Cell) (hv : m.Valid) (hd : 4 ∣ m.here) (h : m.here + 4 ≤ m.capacity) :
    ∃ m', bumpCell v m = .ok m.here m' := by
  have haligned := aligned_eq_self hv.here_le_maxNat hd
  obtain ⟨m₁, ha⟩ := align_of_le hv (by omega)
  have hpad := align_appends ha
  have hhere : m₁.here = m.here := by rw [here_align hv ha, haligned]
  have hroom : m₁.here + cellSize ≤ m₁.capacity := by rw [hhere, hpad.capacity]; exact h
  obtain ⟨m₂, hb⟩ := bump_of_le hroom
  have hbump := (bump_appends hb).2
  have hstore : storeCell m.here v m₂ = .ok () (m₂.setBytes m.here v.toBytes) := by
    rw [storeCell_eq, if_pos (inBounds_iff.mpr (by rw [hbump.capacity, hpad.capacity]; exact h))]
  rw [hhere] at hb
  exact ⟨_, by rw [bumpCell, bind_of_ok ha, bind_of_ok hb, bind_of_ok hstore]; rfl⟩

theorem bumpBytes_of_le (bytes : List UInt8) (h : m.here + bytes.length ≤ m.capacity) :
    ∃ m', bumpBytes bytes m = .ok m.here m' := by
  obtain ⟨m', hb⟩ := bump_of_le h
  exact ⟨_, by rw [bumpBytes, bind_of_ok hb]; rfl⟩

end

end Memory

end Handheld
