/-
  Handheld.Text.Utf8 — text as bytes and bytes as text.

  Bytes are read as UTF-8 without ever failing: a well-formed sequence gives its character,
  and each maximal part of a sequence that cannot be completed gives one replacement
  character. Reading goes on at the first byte that was not part of it. A replacement
  character is three bytes and stands for at most three, so text is never shorter than the
  bytes it was read from (`length_le_utf8ByteSize_ofUtf8`), and text that was written as bytes is
  read back as it was (`ofUtf8_utf8`).
-/

namespace Handheld.Text

def utf8 (s : String) : List UInt8 := s.toList.flatMap String.utf8EncodeChar

def replacement : Char := '�'

def isTail (b : UInt8) : Bool := 0x80 ≤ b && b ≤ 0xBF

/-- Whether `b` can follow the first byte `a` of a sequence of three: it rules out over-long
    forms and surrogates. -/
def second3 (a b : UInt8) : Bool :=
  if a = 0xE0 then 0xA0 ≤ b && b ≤ 0xBF
  else if a = 0xED then 0x80 ≤ b && b ≤ 0x9F
  else isTail b

/-- Whether `b` can follow the first byte `a` of a sequence of four: it rules out over-long
    forms and code points past the last one. -/
def second4 (a b : UInt8) : Bool :=
  if a = 0xF0 then 0x90 ≤ b && b ≤ 0xBF
  else if a = 0xF4 then 0x80 ≤ b && b ≤ 0x8F
  else isTail b

/-- The six low bits of a continuation byte. -/
def tailBits (b : UInt8) : Nat := b.toNat % 64

def char2 (a b : UInt8) : Char := Char.ofNat (a.toNat % 32 * 64 + tailBits b)

def char3 (a b c : UInt8) : Char := Char.ofNat ((a.toNat % 16 * 64 + tailBits b) * 64 + tailBits c)

def char4 (a b c d : UInt8) : Char :=
  Char.ofNat (((a.toNat % 8 * 64 + tailBits b) * 64 + tailBits c) * 64 + tailBits d)

def decode : List UInt8 → List Char
  | [] => []
  | a :: rest =>
    if a < 0x80 then Char.ofNat a.toNat :: decode rest
    else if 0xC2 ≤ a && a ≤ 0xDF then
      match rest with
      | b :: r => if isTail b then char2 a b :: decode r else replacement :: decode (b :: r)
      | [] => [replacement]
    else if 0xE0 ≤ a && a ≤ 0xEF then
      match rest with
      | b :: c :: r =>
        if !second3 a b then replacement :: decode (b :: c :: r)
        else if !isTail c then replacement :: decode (c :: r)
        else char3 a b c :: decode r
      | [b] => if second3 a b then [replacement] else replacement :: decode [b]
      | [] => [replacement]
    else if 0xF0 ≤ a && a ≤ 0xF4 then
      match rest with
      | b :: c :: d :: r =>
        if !second4 a b then replacement :: decode (b :: c :: d :: r)
        else if !isTail c then replacement :: decode (c :: d :: r)
        else if !isTail d then replacement :: decode (d :: r)
        else char4 a b c d :: decode r
      | [b, c] =>
        if !second4 a b then replacement :: decode [b, c]
        else if !isTail c then replacement :: decode [c]
        else [replacement]
      | [b] => if second4 a b then [replacement] else replacement :: decode [b]
      | [] => [replacement]
    else replacement :: decode rest

def ofUtf8 (bytes : List UInt8) : String := String.ofList (decode bytes)

/-! ## Sizes -/

theorem utf8Size_ofNat {n : Nat} (h : n.isValidChar) :
    (Char.ofNat n).utf8Size = if n ≤ 127 then 1 else if n ≤ 2047 then 2 else if n ≤ 65535 then 3 else 4 := by
  have hn : n < 4294967296 := by unfold Nat.isValidChar at h; omega
  have hval : (Char.ofNat n).val.toNat = n := by
    rw [Char.ofNat, dif_pos h]
    rfl
  simp [Char.utf8Size, UInt32.le_iff_toNat_le, hval]

theorem utf8Size_char2 {a b : UInt8} (ha : (0xC2 ≤ a && a ≤ 0xDF) = true) : 2 ≤ (char2 a b).utf8Size := by
  simp only [Bool.and_eq_true, decide_eq_true_eq, UInt8.le_iff_toNat_le, UInt8.reduceToNat] at ha
  rw [char2, tailBits, utf8Size_ofNat (by unfold Nat.isValidChar; omega), if_neg (by omega)]
  split <;> omega

theorem utf8Size_char3 {a b c : UInt8} (ha : (0xE0 ≤ a && a ≤ 0xEF) = true) (hb : second3 a b = true) :
    3 ≤ (char3 a b c).utf8Size := by
  have valid : 2048 ≤ (a.toNat % 16 * 64 + tailBits b) * 64 + tailBits c ∧
      ((a.toNat % 16 * 64 + tailBits b) * 64 + tailBits c).isValidChar := by
    unfold second3 at hb
    unfold Nat.isValidChar tailBits
    simp only [Bool.and_eq_true, decide_eq_true_eq, UInt8.le_iff_toNat_le, UInt8.reduceToNat] at ha
    split at hb
    · next h => subst h; simp [UInt8.le_iff_toNat_le] at hb ⊢; omega
    · next h0 =>
      have h0 : a.toNat ≠ 224 := fun h => h0 (UInt8.toNat_inj.mp h)
      split at hb
      · next h => subst h; simp [UInt8.le_iff_toNat_le] at hb ⊢; omega
      · next h1 =>
        have h1 : a.toNat ≠ 237 := fun h => h1 (UInt8.toNat_inj.mp h)
        simp [isTail, UInt8.le_iff_toNat_le] at hb
        omega
  rw [char3, utf8Size_ofNat valid.2, if_neg (by omega), if_neg (by omega)]
  split <;> omega

theorem utf8Size_char4 {a b c d : UInt8} (ha : (0xF0 ≤ a && a ≤ 0xF4) = true) (hb : second4 a b = true) :
    4 ≤ (char4 a b c d).utf8Size := by
  have valid : 65536 ≤ ((a.toNat % 8 * 64 + tailBits b) * 64 + tailBits c) * 64 + tailBits d ∧
      (((a.toNat % 8 * 64 + tailBits b) * 64 + tailBits c) * 64 + tailBits d).isValidChar := by
    unfold second4 at hb
    unfold Nat.isValidChar tailBits
    simp only [Bool.and_eq_true, decide_eq_true_eq, UInt8.le_iff_toNat_le, UInt8.reduceToNat] at ha
    split at hb
    · next h => subst h; simp [UInt8.le_iff_toNat_le] at hb ⊢; omega
    · next h0 =>
      have h0 : a.toNat ≠ 240 := fun h => h0 (UInt8.toNat_inj.mp h)
      split at hb
      · next h => subst h; simp [UInt8.le_iff_toNat_le] at hb ⊢; omega
      · next h1 =>
        have h1 : a.toNat ≠ 244 := fun h => h1 (UInt8.toNat_inj.mp h)
        simp [isTail, UInt8.le_iff_toNat_le] at hb
        omega
  have size := utf8Size_ofNat valid.2
  rw [if_neg (by omega), if_neg (by omega), if_neg (by omega)] at size
  exact Nat.le_of_eq size.symm

theorem utf8ByteSize_ofList_cons (c : Char) (cs : List Char) :
    (String.ofList (c :: cs)).utf8ByteSize = c.utf8Size + (String.ofList cs).utf8ByteSize := by
  rw [String.ofList_cons, String.utf8ByteSize_append]
  simp

/-- Reading bytes as text never makes them fewer. -/
theorem length_le_utf8ByteSize_ofUtf8 (bytes : List UInt8) : bytes.length ≤ (ofUtf8 bytes).utf8ByteSize := by
  have three : replacement.utf8Size = 3 := rfl
  unfold ofUtf8
  fun_induction decode bytes
  all_goals simp only [utf8ByteSize_ofList_cons, List.length_cons, List.length_nil] at *
  all_goals try omega
  case case2 a _ _ _ =>
    have := (Char.ofNat a.toNat).utf8Size_pos
    omega
  case case3 a _ ha b _ _ _ =>
    have := utf8Size_char2 (b := b) ha
    omega
  case case8 a _ _ ha b c _ hb _ _ =>
    have := utf8Size_char3 (c := c) ha (by simpa using hb)
    omega
  case case15 a _ _ _ ha b c d _ hb _ _ _ =>
    have := utf8Size_char4 (c := c) (d := d) ha (by simpa using hb)
    omega

/-! ## Text written and read back -/

theorem toNat_byte {n : Nat} (h : n < 256) : (UInt8.ofNat n).toNat = n := UInt8.toNat_ofNat_of_lt' h

theorem isTail_byte (n : Nat) : isTail (UInt8.ofNat (n % 64 + 128)) = true := by
  have hn : (UInt8.ofNat (n % 64 + 128)).toNat = n % 64 + 128 := toNat_byte (by omega)
  simp only [isTail, Bool.and_eq_true, decide_eq_true_eq, UInt8.le_iff_toNat_le, hn, UInt8.reduceToNat]
  omega

theorem tailBits_byte (n : Nat) : tailBits (UInt8.ofNat (n % 64 + 128)) = n % 64 := by
  rw [tailBits, toNat_byte (by omega)]
  omega

section

variable {v : Nat} (rest : List UInt8)

theorem decode_one (h : v ≤ 127) : decode (UInt8.ofNat v :: rest) = Char.ofNat v :: decode rest := by
  have ha : (UInt8.ofNat v).toNat = v := toNat_byte (by omega)
  have hlt : UInt8.ofNat v < 0x80 := by simp only [UInt8.lt_iff_toNat_lt, ha, UInt8.reduceToNat]; omega
  rw [decode.eq_def]
  dsimp only
  rw [if_pos hlt, ha]

theorem decode_two (hlo : 127 < v) (hhi : v ≤ 2047) :
    decode (UInt8.ofNat (v / 64 % 32 + 192) :: UInt8.ofNat (v % 64 + 128) :: rest) =
      Char.ofNat v :: decode rest := by
  have ha : (UInt8.ofNat (v / 64 % 32 + 192)).toNat = v / 64 % 32 + 192 := toNat_byte (by omega)
  have hone : ¬ UInt8.ofNat (v / 64 % 32 + 192) < 0x80 := by
    simp only [UInt8.lt_iff_toNat_lt, ha, UInt8.reduceToNat]; omega
  have htwo : (0xC2 ≤ UInt8.ofNat (v / 64 % 32 + 192) && UInt8.ofNat (v / 64 % 32 + 192) ≤ 0xDF) = true := by
    simp only [Bool.and_eq_true, decide_eq_true_eq, UInt8.le_iff_toNat_le, ha, UInt8.reduceToNat]
    omega
  have hchar : char2 (UInt8.ofNat (v / 64 % 32 + 192)) (UInt8.ofNat (v % 64 + 128)) = Char.ofNat v := by
    rw [char2, ha, tailBits_byte]
    congr 1
    omega
  rw [decode, if_neg hone, if_pos htwo]
  rw [if_pos (isTail_byte v), hchar]

theorem decode_three (hlo : 2047 < v) (hhi : v ≤ 65535) (hvalid : v.isValidChar) :
    decode (UInt8.ofNat (v / 4096 % 16 + 224) :: UInt8.ofNat (v / 64 % 64 + 128) ::
      UInt8.ofNat (v % 64 + 128) :: rest) = Char.ofNat v :: decode rest := by
  have ha : (UInt8.ofNat (v / 4096 % 16 + 224)).toNat = v / 4096 % 16 + 224 := toNat_byte (by omega)
  have hb : (UInt8.ofNat (v / 64 % 64 + 128)).toNat = v / 64 % 64 + 128 := toNat_byte (by omega)
  have hone : ¬ UInt8.ofNat (v / 4096 % 16 + 224) < 0x80 := by
    simp only [UInt8.lt_iff_toNat_lt, ha, UInt8.reduceToNat]; omega
  have htwo :
      ¬ (0xC2 ≤ UInt8.ofNat (v / 4096 % 16 + 224) && UInt8.ofNat (v / 4096 % 16 + 224) ≤ 0xDF) = true := by
    simp only [Bool.and_eq_true, decide_eq_true_eq, UInt8.le_iff_toNat_le, ha, UInt8.reduceToNat]
    omega
  have hthree :
      (0xE0 ≤ UInt8.ofNat (v / 4096 % 16 + 224) && UInt8.ofNat (v / 4096 % 16 + 224) ≤ 0xEF) = true := by
    simp only [Bool.and_eq_true, decide_eq_true_eq, UInt8.le_iff_toNat_le, ha, UInt8.reduceToNat]
    omega
  -- no over-long form and no surrogate
  have hsecond : second3 (UInt8.ofNat (v / 4096 % 16 + 224)) (UInt8.ofNat (v / 64 % 64 + 128)) = true := by
    unfold Nat.isValidChar at hvalid
    simp only [second3, ← UInt8.toNat_inj, isTail, UInt8.le_iff_toNat_le, ha, hb, UInt8.reduceToNat]
    split
    · simp only [Bool.and_eq_true, decide_eq_true_eq]; omega
    · split <;> simp only [Bool.and_eq_true, decide_eq_true_eq] <;> omega
  have hchar :
      char3 (UInt8.ofNat (v / 4096 % 16 + 224)) (UInt8.ofNat (v / 64 % 64 + 128))
        (UInt8.ofNat (v % 64 + 128)) =
      Char.ofNat v := by
    rw [char3, ha, tailBits_byte, tailBits_byte]
    congr 1
    omega
  rw [decode, if_neg hone, if_neg htwo, if_pos hthree]
  dsimp only
  rw [hsecond, isTail_byte, hchar]
  rfl

theorem decode_four (hlo : 65535 < v) (hvalid : v.isValidChar) :
    decode (UInt8.ofNat (v / 262144 % 8 + 240) :: UInt8.ofNat (v / 4096 % 64 + 128) ::
      UInt8.ofNat (v / 64 % 64 + 128) :: UInt8.ofNat (v % 64 + 128) :: rest) =
      Char.ofNat v :: decode rest := by
  unfold Nat.isValidChar at hvalid
  have ha : (UInt8.ofNat (v / 262144 % 8 + 240)).toNat = v / 262144 % 8 + 240 := toNat_byte (by omega)
  have hb : (UInt8.ofNat (v / 4096 % 64 + 128)).toNat = v / 4096 % 64 + 128 := toNat_byte (by omega)
  have hone : ¬ UInt8.ofNat (v / 262144 % 8 + 240) < 0x80 := by
    simp only [UInt8.lt_iff_toNat_lt, ha, UInt8.reduceToNat]; omega
  have htwo :
      ¬ (0xC2 ≤ UInt8.ofNat (v / 262144 % 8 + 240) && UInt8.ofNat (v / 262144 % 8 + 240) ≤ 0xDF) = true := by
    simp only [Bool.and_eq_true, decide_eq_true_eq, UInt8.le_iff_toNat_le, ha, UInt8.reduceToNat]
    omega
  have hthree :
      ¬ (0xE0 ≤ UInt8.ofNat (v / 262144 % 8 + 240) && UInt8.ofNat (v / 262144 % 8 + 240) ≤ 0xEF) = true := by
    simp only [Bool.and_eq_true, decide_eq_true_eq, UInt8.le_iff_toNat_le, ha, UInt8.reduceToNat]
    omega
  have hfour :
      (0xF0 ≤ UInt8.ofNat (v / 262144 % 8 + 240) && UInt8.ofNat (v / 262144 % 8 + 240) ≤ 0xF4) = true := by
    simp only [Bool.and_eq_true, decide_eq_true_eq, UInt8.le_iff_toNat_le, ha, UInt8.reduceToNat]
    omega
  -- no over-long form and nothing past the last character
  have hsecond : second4 (UInt8.ofNat (v / 262144 % 8 + 240)) (UInt8.ofNat (v / 4096 % 64 + 128)) = true := by
    simp only [second4, ← UInt8.toNat_inj, isTail, UInt8.le_iff_toNat_le, ha, hb, UInt8.reduceToNat]
    split
    · simp only [Bool.and_eq_true, decide_eq_true_eq]; omega
    · split <;> simp only [Bool.and_eq_true, decide_eq_true_eq] <;> omega
  have hchar :
      char4 (UInt8.ofNat (v / 262144 % 8 + 240)) (UInt8.ofNat (v / 4096 % 64 + 128))
        (UInt8.ofNat (v / 64 % 64 + 128))
      (UInt8.ofNat (v % 64 + 128)) = Char.ofNat v := by
    rw [char4, ha, tailBits_byte, tailBits_byte, tailBits_byte]
    congr 1
    omega
  rw [decode, if_neg hone, if_neg htwo, if_neg hthree, if_pos hfour]
  dsimp only
  rw [hsecond, isTail_byte, isTail_byte, hchar]
  rfl

end

/-- The bytes of a character are read as that character, whatever follows them. -/
theorem decode_encode_append (c : Char) (rest : List UInt8) :
    decode (String.utf8EncodeChar c ++ rest) = c :: decode rest := by
  have hvalid : c.val.toNat.isValidChar := c.valid
  have hchar : Char.ofNat c.val.toNat = c := Char.ofNat_toNat c
  simp only [String.utf8EncodeChar]
  generalize c.val.toNat = v at hvalid hchar
  subst hchar
  split
  · exact decode_one rest ‹_›
  split
  · exact decode_two rest (by omega) ‹_›
  split
  · exact decode_three rest (by omega) ‹_› hvalid
  · exact decode_four rest (by omega) hvalid

/-- Text written as bytes is read back as it was. -/
theorem ofUtf8_utf8 (s : String) : ofUtf8 (utf8 s) = s := by
  have hdecode (cs : List Char) : decode (cs.flatMap String.utf8EncodeChar) = cs := by
    induction cs with
    | nil => rw [List.flatMap_nil, decode]
    | cons c cs ih => rw [List.flatMap_cons, decode_encode_append, ih]
  rw [ofUtf8, utf8, hdecode, String.ofList_toList]

end Handheld.Text
