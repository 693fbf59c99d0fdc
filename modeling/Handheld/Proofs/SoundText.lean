/-
  Handheld.Proofs.SoundText — what a text of digits says about a bank of sounds.

  A bank is 32 effects of 65 bytes, so it can be read flat: byte `k` belongs to effect `k / 65`
  (`SoundBank.byte?`). The loops that fill a bank take its bytes in that order
  (`SoundBank.decode_eq`), so byte `k` of the bank that a text gives is pair `k` of its digits
  (`byte?_decode`), whatever stands between them and however few or many they are. What is no digit
  is passed over, so a bank is read back from its text with anything of the kind put in anywhere
  (`decode_strewn`); the silent effects that the text leaves out at the end come back as zeros.
-/

import Handheld.Proofs.SpriteText

namespace Handheld

/-! ## Pairs of digits -/

namespace Hex

/-- The value of pair `k`: the first digit counts sixteen times the second, a last digit without a
    second counts for itself, and past the digits there is nothing. -/
def pairAt (ds : List Nat) (k : Nat) : Nat :=
  if 2 * k + 1 < ds.length then 16 * ds.getD (2 * k) 0 + ds.getD (2 * k + 1) 0 else ds.getD (2 * k) 0

theorem pairAt_succ (d e : Nat) (ds : List Nat) (k : Nat) : pairAt (d :: e :: ds) (k + 1) = pairAt ds k := by
  have hlength : 2 * k + 2 + 1 < (d :: e :: ds).length ↔ 2 * k + 1 < ds.length := by
    simp only [List.length_cons]
    omega
  simp only [pairAt, hlength, Nat.mul_succ, List.getD_cons_succ]

/-- The bytes of some digits are their pairs. -/
theorem toNat_getD_bytes (ds : List (Fin 16)) (k : Nat) :
    ((bytes ds).getD k 0).toNat = pairAt (ds.map Fin.val) k := by
  fun_induction bytes ds generalizing k with
  | case1 => simp [pairAt]
  | case2 d =>
    have hd : d.val < 16 := d.isLt
    cases k with
    | zero =>
      simp only [pairAt, List.getD_cons_zero, List.map_cons, List.map_nil, List.length_singleton,
        Nat.mul_zero, Nat.lt_irrefl, if_false, UInt8.toNat_ofNat']
      omega
    | succ k => simp [pairAt, Nat.mul_succ]
  | case3 d e rest ih =>
    have hd : d.val < 16 := d.isLt
    have he : e.val < 16 := e.isLt
    cases k with
    | zero =>
      simp only [pairAt, List.getD_cons_zero, List.getD_cons_succ, List.map_cons, List.length_cons,
        Nat.mul_zero, UInt8.toNat_ofNat']
      rw [if_pos (by omega)]
      omega
    | succ k => rw [List.getD_cons_succ, ih, List.map_cons, List.map_cons, pairAt_succ]

/-- The second text is the first with characters put in that are no digits. -/
inductive Strewn : List Char → List Char → Prop where
  | nil : Strewn [] []
  | keep {cs ds : List Char} (c : Char) : Strewn cs ds → Strewn (c :: cs) (c :: ds)
  | put {cs ds : List Char} {c : Char} : value? c = none → Strewn cs ds → Strewn cs (c :: ds)

theorem Strewn.refl (cs : List Char) : Strewn cs cs := by
  induction cs with
  | nil => exact .nil
  | cons c cs ih => exact .keep c ih

theorem digit?_eq_none_iff {c : Char} : digit? c = none ↔ value? c = none := by
  rw [← map_digit?, Option.map_eq_none_iff]

theorem Strewn.digits {cs ds : List Char} (h : Strewn cs ds) : digits ds = digits cs := by
  induction h with
  | nil => rfl
  | keep c _ ih =>
    rw [Hex.digits, Hex.digits, List.filterMap_cons, List.filterMap_cons, ← Hex.digits, ← Hex.digits, ih]
  | put hc _ ih => rw [Hex.digits, List.filterMap_cons_none (digit?_eq_none_iff.mpr hc), ← Hex.digits, ih]

end Hex

/-! ## Banks read flat -/

/-- Byte `j` of an effect: the duration, then the pitches, then the amplitudes. -/
def SoundEffect.byte? (e : SoundEffect) (j : Nat) : Option UInt8 :=
  if j = 0 then some e.duration else if j ≤ 32 then e.pitches[j - 1]? else e.amplitudes[j - 33]?

theorem SoundEffect.byte?_ofBytes (f : Nat → UInt8) {j : Nat} (hj : j < 65) :
    (ofBytes f).byte? j = some (f j) := by
  unfold byte?
  split
  · next hzero => rw [hzero, ofBytes]
  · split
    · have hpitch : j - 1 < 32 := by omega
      rw [ofBytes, Vector.getElem?_eq_getElem hpitch, Vector.getElem_ofFn, show 1 + (j - 1) = j by omega]
    · have hamplitude : j - 33 < 32 := by omega
      rw [ofBytes, Vector.getElem?_eq_getElem hamplitude, Vector.getElem_ofFn,
        show 33 + (j - 33) = j by omega]

namespace SoundBank

/-- Byte `k` of a bank read flat, 65 bytes to an effect. -/
def byte? (b : SoundBank) (k : Nat) : Option UInt8 := (b.get? (k / 65)).bind (·.byte? (k % 65))

theorem byte?_ofBytes (f : Nat → UInt8) {k : Nat} (hk : k < 2080) : (ofBytes f).byte? k = some (f k) := by
  have heffect : k / 65 < 32 := by omega
  have hget : (ofBytes f).get? (k / 65) = some (SoundEffect.ofBytes fun j => f (65 * (k / 65) + j)) := by
    rw [get?, ofBytes, Vector.getElem?_eq_getElem heffect, Vector.getElem_ofFn]
  rw [byte?, hget, Option.bind_some, SoundEffect.byte?_ofBytes _ (Nat.mod_lt k (by decide)), Nat.div_add_mod]

/-- Each byte of the bank that a text gives is the pair of its number among the digits. -/
theorem byte?_decode (cs : List Char) {k : Nat} (hk : k < 2080) :
    ((decode cs).byte? k).map UInt8.toNat = some (Hex.pairAt (cs.filterMap Hex.value?) k) := by
  rw [decode_eq, byte?_ofBytes _ hk, Option.map_some, Hex.toNat_getD_bytes, Hex.map_digits]

/-- What is no digit may be put in anywhere. -/
theorem decode_strewn (b : SoundBank) {cs : List Char} (h : Hex.Strewn b.encode.toList cs) :
    decode cs = b := by
  have hwritten : decode (b.encode.toList ++ []) = b := b.decode_encode rfl
  rw [List.append_nil] at hwritten
  rw [decode_eq, h.digits, ← decode_eq, hwritten]

/-- Byte `k` of the bank that a text gives, counted over all its effects, is pair `k` of the digits
    in the text, and a bank is read back from its text, whatever is put in that is no digit. -/
theorem sound_text_decodes (text : String) :
    (∀ k < 2080, ((decode text.toList).byte? k).map UInt8.toNat =
      some (Hex.pairAt (text.toList.filterMap Hex.value?) k)) ∧
    ∀ bank : SoundBank, Hex.Strewn bank.encode.toList text.toList → decode text.toList = bank :=
  ⟨fun _ hk => byte?_decode text.toList hk, fun bank => bank.decode_strewn⟩

theorem sound_text_decodes_dangling :
    (((decode "10 ff\n7\n)\n".toList).byte? 1).map UInt8.toNat = some 255 ∧
      ((decode "10 ff\n7\n)\n".toList).byte? 2).map UInt8.toNat = some 7 ∧
      ((decode "10 ff\n7\n)\n".toList).byte? 2079).map UInt8.toNat = some 0) ∧
    decode ('z' :: (silent.set 2 { SoundEffect.silent with duration := 6 }).encode.toList) =
      silent.set 2 { SoundEffect.silent with duration := 6 } := by
  obtain ⟨hbytes, -⟩ := sound_text_decodes "10 ff\n7\n)\n"
  have hdigits : "10 ff\n7\n)\n".toList.filterMap Hex.value? = [1, 0, 15, 15, 7] := by decide +kernel
  rw [hdigits] at hbytes
  refine ⟨⟨hbytes 1 (by decide), hbytes 2 (by decide), hbytes 2079 (by decide)⟩, ?_⟩
  generalize silent.set 2 { SoundEffect.silent with duration := 6 } = bank
  have hstrewn : Hex.Strewn bank.encode.toList (String.ofList ('z' :: bank.encode.toList)).toList := by
    rw [String.toList_ofList]
    exact .put (by decide) (.refl _)
  have hread := (sound_text_decodes _).2 bank hstrewn
  rwa [String.toList_ofList] at hread

end SoundBank

end Handheld
