/-
  Handheld.Proofs.SpriteText — what a text of digits says about a sheet.

  A digit is known by its place in the row of the sixteen, small or capital (`Hex.value?`). A text
  is refused at its first character that is neither a digit nor filler, however many digits come
  before it (`findBad?_eq_some_iff`); any other text gives the pixels their digits in order
  (`pixel?_ofDigits`). Filler is passed over, so a sheet is read back from its text with filler put
  in anywhere (`decode_padded`).
-/

import Handheld.Proofs.CartText

namespace Handheld

/-! ## Digits -/

namespace Hex

def smallDigits : List Char := "0123456789abcdef".toList

def capitalDigits : List Char := "0123456789ABCDEF".toList

/-- The value of a digit, by its place in the row of digits. -/
def value? (c : Char) : Option Nat := smallDigits.idxOf? c <|> capitalDigits.idxOf? c

/-- The digits that are read are those of the two rows, with their places there. -/
theorem map_digit? (c : Char) : (digit? c).map Fin.val = value? c := by
  have hascii : ∀ n < 128, (digit? (Char.ofNat n)).map Fin.val = value? (Char.ofNat n) := by decide +kernel
  rcases Nat.lt_or_ge c.toNat 128 with hc | hc
  · have h := hascii c.toNat hc
    rwa [Char.ofNat_toNat] at h
  · have hdigit : digit? c = none := by
      cases h : digit? c with
      | none => rfl
      | some d =>
        have := toNat_of_digit? h
        omega
    have hrow (row : List Char) (hall : row.all (·.toNat < 128) = true) : row.idxOf? c = none := by
      rw [List.idxOf?_eq_none_iff]
      intro hmem
      have := of_decide_eq_true (List.all_eq_true.mp hall c hmem)
      omega
    rw [hdigit, value?, hrow smallDigits (by decide), hrow capitalDigits (by decide)]
    rfl

theorem map_digits (cs : List Char) : (digits cs).map Fin.val = cs.filterMap value? := by
  rw [digits, List.map_filterMap]
  exact congrArg (List.filterMap · cs) (funext map_digit?)

end Hex

namespace SpriteSheet

/-! ## Texts that are refused -/

/-- A character that may stand in the text of a sheet. -/
def isReadable (c : Char) : Bool := Text.isBlank c || c == ')' || (Hex.value? c).isSome

theorem isReadable_eq (c : Char) : isReadable c = (isFiller c || (Hex.digit? c).isSome) := by
  rw [isReadable, ← Hex.map_digit?, Option.isSome_map, isFiller]

/-- What is bad is the first character that cannot be read, and its place is counted in bytes. -/
theorem findBad?_eq_some_iff {cs : List Char} {offset n : Nat} {c : Char} :
    findBad? offset cs = some (c, n) ↔ ∃ before after, cs = before ++ c :: after ∧
      (∀ b ∈ before, isReadable b = true) ∧ isReadable c = false ∧
      n = offset + (String.ofList before).utf8ByteSize := by
  induction cs generalizing offset with
  | nil => simp [findBad?]
  | cons d cs ih =>
    rw [findBad?, ← isReadable_eq]
    by_cases hd : isReadable d = true
    · rw [if_pos hd, ih]
      constructor
      · rintro ⟨before, after, rfl, hbefore, hc, rfl⟩
        refine ⟨d :: before, after, rfl, List.forall_mem_cons.mpr ⟨hd, hbefore⟩, hc, ?_⟩
        simp [String.ofList_cons, Nat.add_assoc]
      · rintro ⟨before, after, hcs, hbefore, hc, rfl⟩
        cases before with
        | nil =>
          cases hcs
          rw [hd] at hc
          cases hc
        | cons b before =>
          cases hcs
          refine ⟨before, after, rfl, fun x hx => hbefore x (List.mem_cons_of_mem _ hx), hc, ?_⟩
          simp [String.ofList_cons, Nat.add_assoc]
    · rw [if_neg hd]
      constructor
      · intro h
        cases h
        exact ⟨[], cs, rfl, List.forall_mem_nil _, Bool.eq_false_iff.mpr hd, by simp⟩
      · rintro ⟨before, after, hcs, hbefore, -, rfl⟩
        cases before with
        | nil =>
          cases hcs
          simp
        | cons b before =>
          cases hcs
          exact absurd (hbefore d List.mem_cons_self) hd

theorem findBad?_eq_none_iff {cs : List Char} {offset : Nat} :
    findBad? offset cs = none ↔ ∀ c ∈ cs, isReadable c = true := by
  constructor
  · intro h
    induction cs generalizing offset with
    | nil => exact List.forall_mem_nil _
    | cons c cs ih =>
      rw [findBad?, ← isReadable_eq] at h
      split at h
      · next hc => exact List.forall_mem_cons.mpr ⟨hc, ih h⟩
      · cases h
  · intro h
    exact findBad?_eq_none (fun c hc => by rw [← isReadable_eq]; exact h c hc) offset

/-! ## Pixels in order -/

theorem place_of_fits {x y : Nat} (h : y * width + x < UInt64.size) : place x y = .ok (y * width + x) := by
  have hstart : Size.mul y width = .ok (y * width) := if_pos (Nat.lt_of_le_of_lt (Nat.le_add_right ..) h)
  have hsum : Size.add (y * width) x = .ok (y * width + x) := if_pos h
  rw [place, hstart]
  exact hsum

theorem get?_of_lt (s : SpriteSheet) {k : Nat} (hk : k < 16384) :
    s.get? (k % width) (k / width) = .ok (some (s.pixels.get ⟨k, hk⟩)) := by
  have hnumber : k / width * width + k % width = k := Nat.div_add_mod' k width
  have hplace : place (k % width) (k / width) = .ok k := by
    have hfits : k / width * width + k % width < UInt64.size := by
      rw [hnumber]; exact Nat.lt_trans hk (by decide)
    rw [place_of_fits hfits, hnumber]
  have hpixel : s.pixels[k]? = some (s.pixels.get ⟨k, hk⟩) := Vector.getElem?_eq_getElem hk
  rw [get?, if_pos (Nat.mod_lt k (by decide)), hplace]
  exact congrArg Except.ok hpixel

/-- What reading a pixel gives, as a number. -/
def pixel? (s : SpriteSheet) (x y : Nat) : Except Overflow (Option Nat) :=
  (s.get? x y).map (Option.map Fin.val)

theorem pixel?_of_lt (s : SpriteSheet) {k : Nat} (hk : k < 16384) :
    s.pixel? (k % width) (k / width) = .ok (some (s.pixels.get ⟨k, hk⟩).val) := by
  rw [pixel?, s.get?_of_lt hk]
  rfl

/-- Each pixel is the digit of its number, counted row by row. -/
theorem pixel?_ofDigits (ds : List (Fin 16)) {k : Nat} (hk : k < 16384) :
    (ofDigits ds).pixel? (k % width) (k / width) = .ok (some (((ds.map Fin.val)[k]?).getD 0)) := by
  have hpixel : (ofDigits ds).pixels.get ⟨k, hk⟩ = ds.getD k Color.transparent := Vector.getElem_ofFn hk
  rw [pixel?_of_lt _ hk, hpixel, List.getElem?_map, List.getD_eq_getElem?_getD]
  cases ds[k]? <;> rfl

/-! ## Filler -/

/-- The second text is the first with blanks and closing parentheses put in. -/
inductive Padded : List Char → List Char → Prop where
  | nil : Padded [] []
  | keep {cs ds : List Char} (c : Char) : Padded cs ds → Padded (c :: cs) (c :: ds)
  | put {cs ds : List Char} {c : Char} : Text.isBlank c = true ∨ c = ')' → Padded cs ds → Padded cs (c :: ds)

theorem Padded.refl (cs : List Char) : Padded cs cs := by
  induction cs with
  | nil => exact .nil
  | cons c cs ih => exact .keep c ih

theorem isFiller_iff {c : Char} : isFiller c = true ↔ Text.isBlank c = true ∨ c = ')' := by simp [isFiller]

theorem Padded.digits {cs ds : List Char} (h : Padded cs ds) : Hex.digits ds = Hex.digits cs := by
  induction h with
  | nil => rfl
  | keep c _ ih =>
    rw [Hex.digits, Hex.digits, List.filterMap_cons, List.filterMap_cons, ← Hex.digits, ← Hex.digits, ih]
  | put hc _ ih =>
    rw [Hex.digits, List.filterMap_cons_none (digit?_of_isFiller (isFiller_iff.mpr hc)), ← Hex.digits, ih]

theorem Padded.readable {cs ds : List Char} (h : Padded cs ds) (hcs : ∀ c ∈ cs, isReadable c = true) :
    ∀ c ∈ ds, isReadable c = true := by
  induction h with
  | nil => exact hcs
  | keep c _ ih =>
    obtain ⟨hc, hcs⟩ := List.forall_mem_cons.mp hcs
    exact List.forall_mem_cons.mpr ⟨hc, ih hcs⟩
  | put hc _ ih =>
    refine List.forall_mem_cons.mpr ⟨?_, ih hcs⟩
    rw [isReadable_eq, isFiller_iff.mpr hc, Bool.true_or]

theorem readable_encode (s : SpriteSheet) : ∀ c ∈ s.encode.toList, isReadable c = true := by
  intro c hc
  rw [isReadable_eq]
  rcases mem_encode hc with ⟨d, rfl⟩ | rfl
  · simp
  · rfl

/-- Filler put in anywhere does not change what is read. -/
theorem decode_padded (s : SpriteSheet) {cs : List Char} (h : Padded s.encode.toList cs) :
    decode cs = .ok s := by
  rw [decode_of_good (findBad?_eq_none_iff.mpr (h.readable s.readable_encode)), h.digits, digits_encode,
    ofDigits_used]

/-! ## Any text -/

theorem decode_of_readable {cs : List Char} (h : ∀ c ∈ cs, isReadable c = true) :
    decode cs = .ok (ofDigits (Hex.digits cs)) :=
  decode_of_good (findBad?_eq_none_iff.mpr h)

theorem decode_eq_error_iff {cs : List Char} {fault : CartFault} :
    decode cs = .error fault ↔ ∃ before c after, cs = before ++ c :: after ∧
      (∀ b ∈ before, isReadable b = true) ∧ isReadable c = false ∧
      fault = .badDigit c (String.ofList before).utf8ByteSize := by
  constructor
  · intro h
    cases hbad : findBad? 0 cs with
    | none =>
      rw [decode_of_good hbad] at h
      cases h
    | some bad =>
      obtain ⟨before, after, hcs, hbefore, hc, hplace⟩ := findBad?_eq_some_iff.mp hbad
      rw [decode_of_bad hbad] at h
      cases h
      exact ⟨before, bad.1, after, hcs, hbefore, hc, by rw [hplace, Nat.zero_add]⟩
  · rintro ⟨before, c, after, hcs, hbefore, hc, rfl⟩
    have hbad : findBad? 0 cs = some (c, 0 + (String.ofList before).utf8ByteSize) :=
      findBad?_eq_some_iff.mpr ⟨before, after, hcs, hbefore, hc, rfl⟩
    rw [decode_of_bad hbad, Nat.zero_add]

theorem decode_fails_iff {cs : List Char} :
    (∃ fault, decode cs = .error fault) ↔ ∃ c ∈ cs, isReadable c = false := by
  constructor
  · intro h
    obtain ⟨fault, h⟩ := h
    obtain ⟨before, c, after, rfl, -, hc, -⟩ := decode_eq_error_iff.mp h
    exact ⟨c, by simp, hc⟩
  · intro h
    obtain ⟨c, hmem, hc⟩ := h
    cases hbad : findBad? 0 cs with
    | none =>
      rw [findBad?_eq_none_iff.mp hbad c hmem] at hc
      cases hc
    | some bad => exact ⟨_, decode_of_bad hbad⟩

/-- A text is refused if and only if a character of it is neither blank, a closing parenthesis nor
    a digit, and then for the first such; otherwise each pixel is the digit of its number, and
    transparent where there is none. A sheet is read back from its text, whatever filler is put in. -/
theorem sprite_text_decodes (text : String) :
    ((∃ fault, decode text.toList = .error fault) ↔ ∃ c ∈ text.toList, isReadable c = false) ∧
    (∀ fault, decode text.toList = .error fault ↔ ∃ before c after, text.toList = before ++ c :: after ∧
      (∀ b ∈ before, isReadable b = true) ∧ isReadable c = false ∧
      fault = .badDigit c (String.ofList before).utf8ByteSize) ∧
    (∀ sheet, decode text.toList = .ok sheet → ∀ k < 16384,
      sheet.pixel? (k % width) (k / width) = .ok (some (((text.toList.filterMap Hex.value?)[k]?).getD 0))) ∧
    ∀ sheet : SpriteSheet, Padded sheet.encode.toList text.toList → decode text.toList = .ok sheet := by
  refine ⟨decode_fails_iff, fun _ => decode_eq_error_iff, fun sheet h k hk => ?_,
      fun sheet => sheet.decode_padded⟩
  cases hbad : findBad? 0 text.toList with
  | none =>
    rw [decode_of_readable (findBad?_eq_none_iff.mp hbad)] at h
    obtain rfl := Except.ok.inj h
    rw [pixel?_ofDigits _ hk, Hex.map_digits]
  | some bad =>
    rw [decode_of_bad hbad] at h
    cases h

theorem sprite_text_decodes_ragged :
    decode "1 \u2003a\n0é)g".toList = .error (.badDigit 'é' 8) ∧
    ∃ sheet, decode "1 \u2003a\n0F)".toList = .ok sheet ∧ sheet.pixel? 3 0 = .ok (some 15) ∧
      sheet.pixel? 4 127 = .ok (some 0) ∧ decode (')' :: sheet.encode.toList) = .ok sheet := by
  have hbad : "1 \u2003a\n0é)g".toList = "1 \u2003a\n0".toList ++ 'é' :: ")g".toList ∧
      "1 \u2003a\n0".toList.all isReadable = true ∧ isReadable 'é' = false ∧
      (String.ofList "1 \u2003a\n0".toList).utf8ByteSize = 8 := by decide +kernel
  have hgood : "1 \u2003a\n0F)".toList.all isReadable = true := by decide +kernel
  have hdigits : "1 \u2003a\n0F)".toList.filterMap Hex.value? = [1, 10, 0, 15] := by decide +kernel
  obtain ⟨hcs, hbefore, hc, hsize⟩ := hbad
  constructor
  · exact ((sprite_text_decodes _).2.1 _).mpr ⟨_, _, _, hcs, List.all_eq_true.mp hbefore, hc, by rw [hsize]⟩
  · obtain ⟨-, -, hpixels, -⟩ := sprite_text_decodes "1 \u2003a\n0F)"
    rw [hdigits] at hpixels
    have hsheet := decode_of_readable (List.all_eq_true.mp hgood)
    refine ⟨_, hsheet, hpixels _ hsheet 3 (by decide), hpixels _ hsheet (127 * 128 + 4) (by decide), ?_⟩
    generalize ofDigits (Hex.digits "1 \u2003a\n0F)".toList) = sheet
    have hpadded : Padded sheet.encode.toList (String.ofList (')' :: sheet.encode.toList)).toList := by
      rw [String.toList_ofList]
      exact .put (.inr rfl) (.refl _)
    have hread := (sprite_text_decodes _).2.2.2 sheet hpadded
    rwa [String.toList_ofList] at hread

end SpriteSheet

end Handheld
