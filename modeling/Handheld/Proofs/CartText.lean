/-
  Handheld.Proofs.CartText — a cart is read back from its text.

  Sprites are read in one pass, which writes the digits of the text over a blank sheet unless a
  character is bad (`SpriteSheet.decode_of_good`, `SpriteSheet.decode_of_bad`); sounds are read in
  rounds of 65 bytes (`SoundBank.decode_eq`). Both are written without what is blank at their
  end, and reading fills it in again (`SpriteSheet.decode_encode`, `SoundBank.decode_encode`).
  The sections are found by their first mark. No mark has a parenthesis in it and no pixel is a
  dash, so a mark can only be found where it was written, or in the source. A source that has a
  mark of its own is cut short there, or its sounds come too early: `parse_toText_iff` says that
  nothing else is lost. A source that was read has no mark in it, for it ends before the first
  one; so one save is enough to bring any text that is read into the form that is read back.
-/

import Handheld.Cart.Basic

namespace Handheld

/-! ## What is blank at the end -/

/-- Leaving out what is blank at the end is not noticed where blanks are filled in. -/
theorem getD_dropBlank {α : Type} (blank : α) (p : α → Bool) (hp : ∀ a, p a = true → a = blank)
    (xs : List α) (k : Nat) :
    ((xs.reverse.dropWhile p).reverse).getD k blank = xs.getD k blank := by
  have hsplit : xs = (xs.reverse.dropWhile p).reverse ++ (xs.reverse.takeWhile p).reverse := by
    rw [← List.reverse_append, List.takeWhile_append_dropWhile, List.reverse_reverse]
  have htail : ∀ a ∈ (xs.reverse.takeWhile p).reverse, a = blank := by
    intro a ha
    exact hp a (List.all_eq_true.mp List.all_takeWhile a (List.mem_reverse.mp ha))
  generalize (xs.reverse.dropWhile p).reverse = used at hsplit
  generalize (xs.reverse.takeWhile p).reverse = rest at hsplit htail
  subst hsplit
  simp only [List.getD_eq_getElem?_getD]
  rcases Nat.lt_or_ge k used.length with hk | hk
  · rw [List.getElem?_append_left hk]
  · rw [List.getElem?_eq_none hk, List.getElem?_append_right hk, Option.getD_none]
    rcases h : rest[k - used.length]? with - | a
    · rfl
    · exact (htail a (List.mem_of_getElem? h)).symm

/-! ## Digits -/

namespace Hex

@[simp] theorem digit?_char (d : Fin 16) : digit? (char d) = some d := by
  revert d
  decide

theorem char_ne_dash (d : Fin 16) : char d ≠ '-' := by
  revert d
  decide

theorem toNat_of_digit? {c : Char} {d : Fin 16} (h : digit? c = some d) :
    48 ≤ c.toNat ∧ c.toNat ≤ 57 ∨ 65 ≤ c.toNat ∧ c.toNat ≤ 70 ∨ 97 ≤ c.toNat ∧ c.toNat ≤ 102 := by
  simp only [digit?, Char.le_def, UInt32.le_iff_toNat_le] at h
  split at h
  · next hc => exact .inl hc
  · split at h
    · next hc => exact .inr (.inr hc)
    · split at h
      · next hc => exact .inr (.inl hc)
      · cases h

theorem digits_append (xs ys : List Char) : digits (xs ++ ys) = digits xs ++ digits ys :=
  List.filterMap_append

theorem digits_flatMap {α : Type} (f : α → List Char) (xs : List α) :
    digits (xs.flatMap f) = xs.flatMap fun a => digits (f a) := by
  induction xs with
  | nil => rfl
  | cons x xs ih => rw [List.flatMap_cons, List.flatMap_cons, digits_append, ih]

@[simp] theorem digits_ofByte (b : UInt8) : digits (ofByte b) = [last (b.toNat / 16), last b.toNat] := by
  simp [digits, ofByte]

/-- Two digits to a byte, and back. -/
theorem bytes_digits_ofByte (bs : List UInt8) : bytes (digits (bs.flatMap ofByte)) = bs := by
  rw [digits_flatMap]
  induction bs with
  | nil => rfl
  | cons b bs ih =>
    have hb := b.toNat_lt
    have hbyte : UInt8.ofNat (16 * (b.toNat / 16 % 16) + b.toNat % 16) = b := by
      rw [show 16 * (b.toNat / 16 % 16) + b.toNat % 16 = b.toNat by omega, UInt8.ofNat_toNat]
    rw [List.flatMap_cons, digits_ofByte, List.cons_append, List.cons_append, List.nil_append, bytes, ih]
    exact congrArg (· :: bs) hbyte

/-- Line feeds between lines of digits are passed over. -/
theorem digits_intercalate (lines : List (List Char)) :
    digits (List.intercalate ['\n'] lines) = lines.flatMap digits := by
  match lines with
  | [] => rfl
  | [line] => simp [List.intercalate]
  | line :: next :: lines =>
    have ih := digits_intercalate (next :: lines)
    rw [show List.intercalate ['\n'] (line :: next :: lines) = line ++
        ('\n' :: List.intercalate ['\n'] (next :: lines)) from rfl,
      digits_append, List.flatMap_cons, ← ih]
    rfl

end Hex

/-! ## Sprites -/

namespace SpriteSheet

/-- The first character that is neither filler nor a digit, with its place in bytes. -/
def findBad? (offset : Nat) : List Char → Option (Char × Nat)
  | [] => none
  | c :: cs =>
    if isFiller c || (Hex.digit? c).isSome then findBad? (offset + c.utf8Size) cs else some (c, offset)

/-- The sheet with digits written over its pixels, from place `next` on. -/
def overlay (s : SpriteSheet) (next : Nat) (ds : List (Fin 16)) : SpriteSheet :=
  ⟨Vector.ofFn fun k => if k.val < next then s.pixels.get k else ds.getD (k.val - next) (s.pixels.get k)⟩

/-- The sheet whose pixels are the digits in order. -/
def ofDigits (ds : List (Fin 16)) : SpriteSheet := ⟨Vector.ofFn fun k => ds.getD k.val Color.transparent⟩

theorem findBad?_eq_none {cs : List Char} (h : ∀ c ∈ cs, (isFiller c || (Hex.digit? c).isSome) = true)
    (offset : Nat) : findBad? offset cs = none := by
  induction cs generalizing offset with
  | nil => rfl
  | cons c cs ih =>
    rw [findBad?, if_pos (h c List.mem_cons_self)]
    exact ih (fun d hd => h d (List.mem_cons_of_mem c hd)) _

theorem overlay_nil (s : SpriteSheet) (next : Nat) : s.overlay next [] = s := by
  obtain ⟨pixels⟩ := s
  refine congrArg SpriteSheet.mk (Vector.ext fun k hk => ?_)
  rw [Vector.getElem_ofFn, List.getD_nil, ite_self]
  rfl

/-- The first digit goes to its place, the others to the places after it. -/
theorem overlay_cons (s : SpriteSheet) (next : Nat) (d : Fin 16) (ds : List (Fin 16)) :
    s.overlay next (d :: ds) = overlay ⟨s.pixels.setIfInBounds next d⟩ (next + 1) ds := by
  refine congrArg SpriteSheet.mk (Vector.ext fun k hk => ?_)
  have hpixel : (s.pixels.setIfInBounds next d).get ⟨k, hk⟩ = if next = k then d else s.pixels.get ⟨k, hk⟩ :=
    Vector.getElem_setIfInBounds hk
  rw [Vector.getElem_ofFn, Vector.getElem_ofFn, hpixel]
  rcases Nat.lt_trichotomy k next with hlt | rfl | hgt
  · rw [if_pos hlt, if_pos (Nat.lt_succ_of_lt hlt), if_neg (Nat.ne_of_gt hlt)]
  · rw [if_neg (Nat.lt_irrefl k), if_pos (Nat.lt_succ_self k), if_pos rfl, Nat.sub_self, List.getD_cons_zero]
  · rw [if_neg (Nat.lt_asymm hgt), if_neg (Nat.not_lt.mpr hgt), if_neg (Nat.ne_of_lt hgt),
      show k - next = k - (next + 1) + 1 by omega, List.getD_cons_succ]

theorem overlay_blank (ds : List (Fin 16)) : blank.overlay 0 ds = ofDigits ds := by
  refine congrArg SpriteSheet.mk (Vector.ext fun k hk => ?_)
  have hpixel : blank.pixels.get ⟨k, hk⟩ = Color.transparent := Vector.getElem_replicate hk
  rw [Vector.getElem_ofFn, Vector.getElem_ofFn, if_neg (Nat.not_lt_zero k), hpixel, Nat.sub_zero]

theorem digit?_of_isFiller {c : Char} (h : isFiller c = true) : Hex.digit? c = none := by
  cases hd : Hex.digit? c with
  | none => rfl
  | some d =>
    have hrange := Hex.toNat_of_digit? hd
    simp only [isFiller, Text.isBlank, Bool.or_eq_true, Bool.and_eq_true, decide_eq_true_eq, beq_iff_eq] at h
    rcases h with hb | rfl
    · omega
    · cases hd

/-- The pass writes the digits in the order of the text, and the first bad character ends it. -/
theorem decodeFrom_eq (s : SpriteSheet) (next offset : Nat) (cs : List Char) :
    s.decodeFrom next offset cs =
      (findBad? offset cs).elim (.ok (s.overlay next (Hex.digits cs))) fun bad =>
        .error (.badDigit bad.1 bad.2) := by
  induction cs generalizing s next offset with
  | nil =>
    rw [decodeFrom, Hex.digits, List.filterMap_nil, overlay_nil]
    rfl
  | cons c cs ih =>
    rw [decodeFrom, findBad?, Hex.digits, List.filterMap_cons]
    by_cases hfiller : isFiller c = true
    · rw [if_pos hfiller, hfiller, Bool.true_or, if_pos rfl, digit?_of_isFiller hfiller]
      exact ih s next _
    · rw [if_neg hfiller, Bool.eq_false_iff.mpr hfiller, Bool.false_or]
      cases hd : Hex.digit? c with
      | none => rfl
      | some d =>
        rw [overlay_cons]
        exact ih _ (next + 1) _

theorem decode_of_good {cs : List Char} (h : findBad? 0 cs = none) :
    decode cs = .ok (ofDigits (Hex.digits cs)) := by
  rw [decode, decodeFrom_eq, h, Option.elim_none, overlay_blank]

theorem decode_of_bad {cs : List Char} {c : Char} {n : Nat} (h : findBad? 0 cs = some (c, n)) :
    decode cs = .error (.badDigit c n) := by
  rw [decode, decodeFrom_eq, h, Option.elim_some]

/-- A sheet is written in digits and line feeds. -/
theorem mem_encode {s : SpriteSheet} {c : Char} (h : c ∈ s.encode.toList) :
    (∃ d, c = Hex.char d) ∨ c = '\n' := by
  rw [encode, String.toList_ofList] at h
  obtain ⟨⟨p, i⟩, -, hc⟩ := List.mem_flatMap.mp h
  change c ∈ encodePixel p i at hc
  unfold encodePixel at hc
  split at hc
  · rcases List.mem_cons.mp hc with rfl | hc
    · exact .inl ⟨p, rfl⟩
    · exact .inr (List.mem_singleton.mp hc)
  · exact .inl ⟨p, List.mem_singleton.mp hc⟩

theorem dash_not_mem_encode (s : SpriteSheet) : '-' ∉ s.encode.toList := by
  intro h
  rcases mem_encode h with ⟨d, hd⟩ | hd
  · exact Hex.char_ne_dash d hd.symm
  · cases hd

theorem digits_encodePixel (p : ColorIndex) (i : Nat) : Hex.digits (encodePixel p i) = [p] := by
  unfold encodePixel
  split
  · rw [Hex.digits, List.filterMap_cons_some (Hex.digit?_char p)]
    rfl
  · rw [Hex.digits, List.filterMap_cons_some (Hex.digit?_char p)]
    rfl

/-- The digits of a sheet are its pixels, up to the last that is not transparent. -/
theorem digits_encode (s : SpriteSheet) : Hex.digits s.encode.toList = s.used := by
  have hpixels (ps : List ColorIndex) (n : Nat) :
      Hex.digits ((ps.zipIdx n).flatMap fun x => encodePixel x.1 x.2) = ps := by
    induction ps generalizing n with
    | nil => rfl
    | cons p ps ih => rw [List.zipIdx_cons, List.flatMap_cons, Hex.digits_append, digits_encodePixel, ih]; rfl
  rw [encode, String.toList_ofList]
  exact hpixels s.used 0

theorem ofDigits_used (s : SpriteSheet) : ofDigits s.used = s := by
  obtain ⟨pixels⟩ := s
  have htrim :=
    getD_dropBlank Color.transparent (· = Color.transparent) (fun a h => of_decide_eq_true h) pixels.toList
  refine congrArg SpriteSheet.mk (Vector.ext fun k hk => ?_)
  have hpixel : pixels.toList.getD k Color.transparent = pixels[k] := by
    rw [List.getD_eq_getElem?_getD, Vector.getElem?_toList, Vector.getElem?_eq_getElem hk, Option.getD_some]
  rw [Vector.getElem_ofFn, ← hpixel, ← htrim k, used]

/-- A sheet is read back from its text. -/
theorem decode_encode (s : SpriteSheet) : decode s.encode.toList = .ok s := by
  have hgood : findBad? 0 s.encode.toList = none := by
    refine findBad?_eq_none (fun c hc => ?_) 0
    rcases mem_encode hc with ⟨d, rfl⟩ | rfl
    · simp
    · rfl
  rw [decode_of_good hgood, digits_encode, ofDigits_used]

end SpriteSheet

/-! ## Sounds -/

namespace SoundEffect

/-- The effect whose bytes a function gives. -/
def ofBytes (f : Nat → UInt8) : SoundEffect :=
  ⟨f 0, Vector.ofFn fun j => f (1 + j.val), Vector.ofFn fun j => f (33 + j.val)⟩

/-- The notes that are read are the next bytes, with zeros after the last one. -/
theorem readNotes_eq (n : Nat) (bytes : List UInt8) :
    readNotes n bytes = (Vector.ofFn fun j => bytes.getD j.val 0, bytes.drop n) := by
  induction n with
  | zero => rfl
  | succ n ih =>
    have hnext : (bytes.drop n).headD 0 = bytes.getD n 0 := by
      rw [List.headD_eq_head?_getD, List.head?_drop, List.getD_eq_getElem?_getD]
    rw [readNotes, ih]
    dsimp only
    rw [hnext, List.tail_drop, Vector.ofFn_succ]
    rfl

theorem ofBytes_zero : ofBytes (fun _ => 0) = silent := by decide

theorem length_toBytes (e : SoundEffect) : e.toBytes.length = 65 := by simp [toBytes]

theorem getD_silent (k : Nat) : silent.toBytes.getD k 0 = 0 := by
  have hzeros : silent.toBytes = List.replicate 65 0 := by decide
  rw [hzeros, List.getD_eq_getElem?_getD, List.getElem?_replicate]
  split <;> rfl

theorem ofBytes_congr {f g : Nat → UInt8} (h : ∀ k < 65, f k = g k) : ofBytes f = ofBytes g := by
  have hpitch (j : Fin 32) : f (1 + j.val) = g (1 + j.val) := h _ (by omega)
  have hamplitude (j : Fin 32) : f (33 + j.val) = g (33 + j.val) := h _ (by omega)
  simp only [ofBytes, h 0 (by omega), hpitch, hamplitude]

/-- An effect is what its bytes say. -/
theorem ofBytes_toBytes (e : SoundEffect) : ofBytes (fun k => e.toBytes.getD k 0) = e := by
  obtain ⟨duration, pitches, amplitudes⟩ := e
  have hpitches :
      (Vector.ofFn fun j : Fin 32 => (toBytes ⟨duration, pitches, amplitudes⟩).getD (1 + j.val) 0) =
        pitches := by
    ext j hj
    have hleft : j < pitches.toList.length := by simpa using hj
    rw [Vector.getElem_ofFn, toBytes, Nat.add_comm, List.getD_cons_succ, List.getD_eq_getElem?_getD,
      List.getElem?_append_left hleft]
    simp [hj]
  have hamplitudes :
      (Vector.ofFn fun j : Fin 32 => (toBytes ⟨duration, pitches, amplitudes⟩).getD (33 + j.val) 0) =
        amplitudes := by
    ext j hj
    have hright : pitches.toList.length ≤ 32 + j := by simp
    rw [Vector.getElem_ofFn, toBytes,
      show 33 + j = 32 + j + 1 by omega, List.getD_cons_succ, List.getD_eq_getElem?_getD,
      List.getElem?_append_right hright]
    simp [hj]
  simp only [ofBytes, hpitches, hamplitudes]
  rfl

end SoundEffect

namespace SoundBank

open SoundEffect (toBytes)

/-- The bank whose bytes, read flat, a function gives. -/
def ofBytes (f : Nat → UInt8) : SoundBank :=
  ⟨Vector.ofFn fun i => SoundEffect.ofBytes fun k => f (65 * i.val + k)⟩

/-- The loop gives effect `i` the bytes from number `65 * i` on: each round takes 65 of them, and
    what was not reached by any round is as silent as an effect of zeros. -/
theorem getElem?_fill {n i : Nat} (hi : i < n) (bytes : List UInt8) :
    (fill (List.replicate n .silent) bytes)[i]? =
      some (SoundEffect.ofBytes fun k => bytes.getD (65 * i + k) 0) := by
  induction n generalizing i bytes with
  | zero => cases hi
  | succ n ih =>
    cases bytes with
    | nil =>
      simp only [List.getD_nil, SoundEffect.ofBytes_zero]
      rw [List.replicate_succ, fill, ← List.replicate_succ, List.getElem?_replicate, if_pos hi]
    | cons duration bytes =>
      have hrest (taken k : Nat) :
          (bytes.drop taken).getD k 0 = (duration :: bytes).getD (taken + 1 + k) 0 := by
        rw [List.getD_eq_getElem?_getD, List.getElem?_drop, ← List.getD_eq_getElem?_getD, Nat.add_right_comm,
          List.getD_cons_succ]
      simp only [List.replicate_succ, fill, SoundEffect.readNotes_eq, List.drop_drop]
      cases i with
      | zero =>
        have hpitch (j : Fin 32) : bytes.getD j.val 0 = (duration :: bytes).getD (1 + j.val) 0 :=
          hrest 0 j.val
        simp only [List.getElem?_cons_zero, SoundEffect.ofBytes, Nat.mul_zero, Nat.zero_add,
          List.getD_cons_zero, hpitch, hrest]
      | succ i =>
        rw [List.getElem?_cons_succ, ih (Nat.lt_of_succ_lt_succ hi)]
        simp only [hrest, Nat.mul_succ, Nat.add_comm, Nat.add_left_comm]

theorem decode_eq (cs : List Char) : decode cs = ofBytes fun k => (Hex.bytes (Hex.digits cs)).getD k 0 := by
  refine congrArg SoundBank.mk (Vector.ext fun i hi => ?_)
  have hfill := getElem?_fill hi (Hex.bytes (Hex.digits cs))
  rw [Vector.getElem_ofFn]
  exact (List.getElem_eq_iff _).mpr hfill

/-- The bytes of effects in a row, effect by effect. -/
theorem getD_flatMap_toBytes (es : List SoundEffect) (i : Nat) {k : Nat} (hk : k < 65) :
    (es.flatMap toBytes).getD (65 * i + k) 0 = (es.getD i .silent).toBytes.getD k 0 := by
  induction es generalizing i with
  | nil => exact (SoundEffect.getD_silent k).symm
  | cons e es ih =>
    have hlen := e.length_toBytes
    rw [List.flatMap_cons, List.getD_eq_getElem?_getD]
    cases i with
    | zero =>
      rw [List.getElem?_append_left (by omega), List.getD_cons_zero, List.getD_eq_getElem?_getD,
        Nat.mul_zero, Nat.zero_add]
    | succ i =>
      rw [List.getElem?_append_right (by omega), List.getD_cons_succ, ← ih i,
        List.getD_eq_getElem?_getD, hlen]
      congr 2
      omega

theorem bytes_digits_encode (b : SoundBank) :
    Hex.bytes (Hex.digits b.encode.toList) = b.used.flatMap toBytes := by
  have hlines : Hex.digits b.encode.toList = Hex.digits ((b.used.flatMap toBytes).flatMap Hex.ofByte) := by
    rw [encode, String.toList_ofList, Hex.digits_intercalate, List.flatMap_map, List.flatMap_assoc,
      Hex.digits_flatMap]
    rfl
  rw [hlines, Hex.bytes_digits_ofByte]

theorem ofBytes_used (b : SoundBank) : ofBytes (fun k => (b.used.flatMap toBytes).getD k 0) = b := by
  obtain ⟨effects⟩ := b
  have htrim :=
    getD_dropBlank SoundEffect.silent SoundEffect.isSilent (fun e h => of_decide_eq_true h) effects.toList
  refine congrArg SoundBank.mk (Vector.ext fun i hi => ?_)
  have heffect : effects.toList.getD i .silent = effects[i] := by
    rw [List.getD_eq_getElem?_getD, Vector.getElem?_toList, Vector.getElem?_eq_getElem hi, Option.getD_some]
  rw [Vector.getElem_ofFn, SoundEffect.ofBytes_congr fun k hk => getD_flatMap_toBytes _ i hk,
    SoundEffect.ofBytes_toBytes, used, htrim i, heffect]

/-- A bank is read back from its text, whatever follows it that is no digit. -/
theorem decode_encode (b : SoundBank) {rest : List Char} (hrest : Hex.digits rest = []) :
    decode (b.encode.toList ++ rest) = b := by
  have hbytes : Hex.bytes (Hex.digits (b.encode.toList ++ rest)) = b.used.flatMap toBytes := by
    rw [Hex.digits_append, hrest, List.append_nil, bytes_digits_encode]
  rw [decode_eq, hbytes, ofBytes_used]

end SoundBank

/-! ## Finding a mark -/

namespace Cart

section

variable {mark cs xs ys : List Char}

theorem findFrom_eq (mark : List Char) (i : Nat) (cs : List Char) :
    findFrom mark i cs = (find? mark cs).map (· + i) := by
  unfold find?
  induction cs generalizing i with
  | nil => rfl
  | cons c cs ih =>
    rw [findFrom, findFrom]
    split
    · simp
    · rw [ih (i + 1), ih (0 + 1), Option.map_map]
      congr 1
      funext n
      simp only [Function.comp_apply]
      omega

theorem find?_of_prefix {c : Char} (h : mark <+: c :: cs) : find? mark (c :: cs) = some 0 :=
  if_pos (List.isPrefixOf_iff_prefix.mpr h)

theorem find?_of_not_prefix {c : Char} (h : ¬ mark <+: c :: cs) :
    find? mark (c :: cs) = (find? mark cs).map (· + 1) := by
  rw [find?, findFrom, if_neg (fun hp => h (List.isPrefixOf_iff_prefix.mp hp)), findFrom_eq]

/-- Text that no occurrence begins in is passed over. -/
theorem find?_append (h : ∀ zs, zs <:+ xs → zs ≠ [] → ¬ mark <+: zs ++ ys) :
    find? mark (xs ++ ys) = (find? mark ys).map (· + xs.length) := by
  induction xs with
  | nil => simp
  | cons x xs ih =>
    have hrest := ih fun zs hz => h zs (hz.trans (List.suffix_cons x xs))
    have hhere : ¬ mark <+: x :: (xs ++ ys) := h _ (List.suffix_refl _) (List.cons_ne_nil x xs)
    rw [List.cons_append, find?_of_not_prefix hhere, hrest, Option.map_map]
    rfl

/-- The first occurrence is no later than any. -/
theorem find?_le (hmark : mark ≠ []) (xs ys : List Char) :
    ∃ i ≤ xs.length, find? mark (xs ++ (mark ++ ys)) = some i := by
  induction xs with
  | nil =>
    obtain ⟨c, rest, rfl⟩ := List.exists_cons_of_ne_nil hmark
    exact ⟨0, Nat.le_refl 0, find?_of_prefix (List.prefix_append (c :: rest) ys)⟩
  | cons x xs ih =>
    obtain ⟨i, hi, hfind⟩ := ih
    by_cases hp : mark <+: x :: (xs ++ (mark ++ ys))
    · exact ⟨0, Nat.zero_le _, find?_of_prefix hp⟩
    · refine ⟨i + 1, by simpa using hi, ?_⟩
      rw [List.cons_append, find?_of_not_prefix hp, hfind]
      rfl

theorem find?_self (hmark : mark ≠ []) (ys : List Char) : find? mark (mark ++ ys) = some 0 := by
  obtain ⟨i, hi, hfind⟩ := find?_le hmark [] ys
  rw [show i = 0 from Nat.le_zero.mp hi] at hfind
  exact hfind

/-- An occurrence in the source comes before its end. -/
theorem find?_lt_of_infix (hmark : mark ≠ []) (h : mark <:+: xs) (ys : List Char) :
    ∃ i < xs.length, find? mark (xs ++ ys) = some i := by
  obtain ⟨before, rest, rfl⟩ := h
  obtain ⟨i, hi, hfind⟩ := find?_le hmark before (rest ++ ys)
  refine ⟨i, ?_, by simpa using hfind⟩
  have := List.length_pos_iff.mpr hmark
  simp only [List.length_append]
  omega

/-- A text that does not have the character does not reach over it. -/
theorem prefix_of_not_mem {c : Char} (hc : c ∉ mark) (h : mark <+: xs ++ c :: ys) : mark <+: xs := by
  have hupto : xs ++ [c] <+: xs ++ c :: ys := ⟨ys, by simp⟩
  rcases List.prefix_or_prefix_of_prefix h hupto with hm | hm
  · rcases List.prefix_concat_iff.mp hm with rfl | hm
    · simp at hc
    · exact hm
  · exact absurd (hm.subset (by simp)) hc

/-- No mark that has no parenthesis begins in a source without it, or with the parenthesis
    that closes the source. -/
theorem find?_source (hparen : '(' ∉ mark) (hsource : ¬ mark <:+: xs) (ys : List Char) :
    find? mark (xs ++ '(' :: ys) = (find? mark ys).map (· + (xs.length + 1)) := by
  have hskip : find? mark ((xs ++ ['(']) ++ ys) = (find? mark ys).map (· + (xs ++ ['(']).length) := by
    refine find?_append fun zs hz hne hp => ?_
    rcases List.suffix_concat_iff.mp hz with rfl | ⟨ws, rfl, hw⟩
    · exact hne rfl
    · rw [List.append_assoc] at hp
      exact hsource ((prefix_of_not_mem hparen hp).isInfix.trans hw.isInfix)
  simpa using hskip

end

theorem spriteMark_ne_nil : spriteMark ≠ [] := by decide

theorem soundMark_ne_nil : soundMark ≠ [] := by decide

/-- Between the first mark and the second there is no other place for the second to begin. -/
theorem find?_soundMark {pixels : List Char} (hdash : '-' ∉ pixels) (ys : List Char) :
    find? soundMark (spriteMark ++ (pixels ++ (soundMark ++ ys))) =
      some (spriteMark.length + pixels.length) := by
  have hheader : spriteMark = spriteMark.dropLast ++ ['\n'] := by decide
  have hfar : ∀ n < spriteMark.dropLast.length, ¬ spriteMark.dropLast.drop n <+: soundMark := by decide
  have hskip (zs : List Char) (hz : zs <:+ '\n' :: pixels) (hne : zs ≠ []) :
      ¬ soundMark <+: zs ++ (soundMark ++ ys) := by
    have hquiet : '-' ∉ zs := fun hm => by
      rcases List.mem_cons.mp (hz.subset hm) with hm | hm
      · cases hm
      · exact hdash hm
    -- The second character of the mark is a dash, and there is none to be had.
    intro hp
    match zs with
    | [] => exact hne rfl
    | [z] => exact absurd (List.cons_prefix_cons.mp (List.cons_prefix_cons.mp hp).2).1 (by decide)
    | z :: w :: zs =>
      have hw : '-' = w := (List.cons_prefix_cons.mp (List.cons_prefix_cons.mp hp).2).1
      exact hquiet (hw ▸ List.mem_cons_of_mem z List.mem_cons_self)
  have hrest : find? soundMark ('\n' :: pixels ++ (soundMark ++ ys)) = some (pixels.length + 1) := by
    rw [find?_append hskip, find?_self soundMark_ne_nil]
    simp
  rw [hheader, List.append_assoc, find?_append fun zs hz hne hp => ?_]
  · rw [show ['\n'] ++ (pixels ++ (soundMark ++ ys)) = '\n' :: pixels ++ (soundMark ++ ys) from rfl, hrest]
    simp only [Option.map_some, List.length_append, List.length_singleton]
    congr 1
    omega
  · have hpos := List.length_pos_iff.mpr hne
    have hle := hz.length_le
    have hstart : zs <+: soundMark :=
      List.prefix_of_prefix_length_le (List.prefix_append ..) hp (Nat.le_trans hle (by decide))
    rw [List.suffix_iff_eq_drop.mp hz] at hstart
    exact hfar _ (by omega) hstart

/-! ## Reading and writing -/

theorem toList_toText (c : Cart) :
    c.toText.toList = c.source.toList ++ '(' :: (spriteMark ++ (c.sprites.encode.toList ++ (soundMark ++
      (c.sounds.encode.toList ++ ['\n', ')', '\n'])))) := by
  simp [toText]

theorem beforeComment_open (cs : List Char) : beforeComment (cs ++ ['(']) = cs := by
  simp [beforeComment]

theorem beforeComment_prefix (cs : List Char) : beforeComment cs <+: cs := by
  have h := (List.drop_suffix 1 _).trans (List.dropWhile_suffix (· ≠ '(') (l := cs.reverse))
  rw [← List.reverse_prefix, List.reverse_reverse] at h
  exact h

/-- A text with both marks in order, and pixels between them, is a cart. -/
theorem parse_of_found {text : String} {i j : Nat} {sheet : SpriteSheet}
    (hi : find? spriteMark text.toList = some i)
    (hj : find? soundMark text.toList = some j) (hle : i + spriteMark.length ≤ j)
    (hsheet : SpriteSheet.decode ((text.toList.take j).drop (i + spriteMark.length)) = .ok sheet) :
    parse text = .ok ⟨String.ofList (beforeComment (text.toList.take i)), sheet,
      SoundBank.decode (text.toList.drop (j + soundMark.length))⟩ := by
  simp only [parse, hi, hj, if_neg (Nat.not_lt.mpr hle), hsheet]
  rfl

/-- What is read as the source stands before the first mark, and the marks are in order. -/
theorem source_prefix_of_parse {text : String} {c : Cart} (h : parse text = .ok c) :
    ∃ i j, find? spriteMark text.toList = some i ∧ find? soundMark text.toList = some j ∧
    i + spriteMark.length ≤ j ∧
      c.source.toList <+: text.toList.take i := by
  simp only [parse] at h
  split at h
  · next i j hi hj =>
    split at h
    · cases h
    · next hle =>
      cases hd : SpriteSheet.decode ((text.toList.take j).drop (i + spriteMark.length)) with
      | error e => rw [hd] at h; cases h
      | ok sheet =>
        rw [hd] at h
        cases h
        refine ⟨i, j, hi, hj, Nat.not_lt.mp hle, ?_⟩
        rw [String.toList_ofList]
        exact beforeComment_prefix _
  · cases h

theorem parse_eq_ok {text : String} {c : Cart} (h : parse text = .ok c) :
    ∃ i j, find? spriteMark text.toList = some i ∧ find? soundMark text.toList = some j ∧
    i + spriteMark.length ≤ j ∧
      c.source.toList.length ≤ i := by
  obtain ⟨i, j, hi, hj, hle, hsource⟩ := source_prefix_of_parse h
  have hlen := hsource.length_le
  rw [List.length_take] at hlen
  exact ⟨i, j, hi, hj, hle, by omega⟩

/-- A cart is read back from its text, unless its source has a mark in it. -/
theorem parse_toText_of_not_infix (c : Cart) (hsprite : ¬ spriteMark <:+: c.source.toList)
    (hsound : ¬ soundMark <:+: c.source.toList) : parse c.toText = .ok c := by
  obtain ⟨source, sprites, sounds⟩ := c
  have htext := toList_toText ⟨source, sprites, sounds⟩
  have hi : find? spriteMark (toText ⟨source, sprites, sounds⟩).toList = some (source.toList.length + 1) := by
    rw [htext, find?_source (by decide) hsprite, find?_self spriteMark_ne_nil]
    simp
  have hj : find? soundMark (toText ⟨source, sprites, sounds⟩).toList =
      some (source.toList.length + 1 + spriteMark.length + sprites.encode.toList.length) := by
    rw [htext, find?_source (by decide) hsound, find?_soundMark (sprites.dash_not_mem_encode)]
    simp only [Option.map_some]
    congr 1
    omega
  have hbefore : (toText ⟨source, sprites, sounds⟩).toList.take (source.toList.length + 1) =
      source.toList ++ ['('] := by
    rw [htext, ← List.singleton_append, ← List.append_assoc, List.take_left' (by simp)]
  have hpixels : ((toText ⟨source, sprites, sounds⟩).toList.take
      (source.toList.length + 1 + spriteMark.length + sprites.encode.toList.length)).drop
      (source.toList.length + 1 + spriteMark.length) = sprites.encode.toList := by
    have hsplit : (toText ⟨source, sprites, sounds⟩).toList = (source.toList ++ '(' :: spriteMark) ++
        (sprites.encode.toList ++
        (soundMark ++ (sounds.encode.toList ++ ['\n', ')', '\n']))) := by rw [htext]; simp
    rw [hsplit, List.drop_take, List.drop_left' (by simp; omega), List.take_left' (by simp)]
  have hbank : (toText ⟨source, sprites, sounds⟩).toList.drop
      (source.toList.length + 1 + spriteMark.length + sprites.encode.toList.length + soundMark.length) =
      sounds.encode.toList ++ ['\n', ')', '\n'] := by
    have hsplit : (toText ⟨source, sprites, sounds⟩).toList =
        (source.toList ++ '(' :: (spriteMark ++ (sprites.encode.toList ++
        soundMark))) ++ (sounds.encode.toList ++ ['\n', ')', '\n']) := by rw [htext]; simp
    rw [hsplit, List.drop_left' (by simp; omega)]
  rw [parse_of_found hi hj (by omega) (by rw [hpixels]; exact sprites.decode_encode), hbefore, hbank,
    beforeComment_open, String.ofList_toList, SoundBank.decode_encode sounds (by decide)]

/-- Reading the text of a cart gives the cart, exactly when the source has neither mark in it. -/
theorem parse_toText_iff (c : Cart) :
    parse c.toText = .ok c ↔ ¬ spriteMark <:+: c.source.toList ∧ ¬ soundMark <:+: c.source.toList := by
  constructor
  · intro h
    obtain ⟨i, j, hi, hj, hle, hlen⟩ := parse_eq_ok h
    rw [toList_toText] at hi hj
    constructor
    · intro hsprite
      obtain ⟨i', hlt, hi'⟩ := find?_lt_of_infix spriteMark_ne_nil hsprite _
      rw [hi] at hi'
      cases hi'
      omega
    · intro hsound
      obtain ⟨j', hlt, hj'⟩ := find?_lt_of_infix soundMark_ne_nil hsound _
      rw [hj] at hj'
      cases hj'
      omega
  · rintro ⟨hsprite, hsound⟩
    exact parse_toText_of_not_infix c hsprite hsound

/-! ## Carts that were read -/

/-- Up to its first place a mark is nowhere in the text. -/
theorem not_infix_of_find? {mark text : List Char} {i j : Nat} (hmark : mark ≠ [])
    (h : find? mark text = some j) (hle : i ≤ j) : ¬ mark <:+: text.take i := by
  intro hinfix
  obtain ⟨k, hk, hfind⟩ := find?_lt_of_infix hmark hinfix (text.drop i)
  rw [List.take_append_drop, h] at hfind
  cases hfind
  rw [List.length_take] at hk
  omega

theorem not_infix_of_find?_eq_none {mark text : List Char} (hmark : mark ≠ [])
    (h : find? mark text = none) : ¬ mark <:+: text := by
  intro hinfix
  obtain ⟨k, -, hfind⟩ := find?_lt_of_infix hmark hinfix []
  rw [List.append_nil, h] at hfind
  cases hfind

theorem not_infix_of_parse {text : String} {c : Cart} (h : parse text = .ok c) :
    ¬ spriteMark <:+: c.source.toList ∧ ¬ soundMark <:+: c.source.toList := by
  obtain ⟨i, j, hi, hj, hle, hsource⟩ := source_prefix_of_parse h
  have hsprite := not_infix_of_find? spriteMark_ne_nil hi (Nat.le_refl i)
  have hsound := not_infix_of_find? (i := i) soundMark_ne_nil hj (by omega)
  exact ⟨fun hm => hsprite (hm.trans hsource.isInfix), fun hm => hsound (hm.trans hsource.isInfix)⟩

/-- No cart that is read has a mark in its source, whatever else the text held. -/
theorem not_infix_of_parseOrSource {text : String} {c : Cart} (h : parseOrSource text = .ok c) :
    ¬ spriteMark <:+: c.source.toList ∧ ¬ soundMark <:+: c.source.toList := by
  unfold parseOrSource at h
  split at h
  · next hnone =>
    cases h
    rw [Bool.and_eq_true, Option.isNone_iff_eq_none, Option.isNone_iff_eq_none] at hnone
    exact ⟨not_infix_of_find?_eq_none spriteMark_ne_nil hnone.1,
        not_infix_of_find?_eq_none soundMark_ne_nil hnone.2⟩
  · exact not_infix_of_parse h

/-- However a cart was written, the text it is saved as reads back as the same cart. -/
theorem parse_toText_of_parseOrSource {text : String} {c : Cart} (h : parseOrSource text = .ok c) :
    parse c.toText = .ok c := by
  obtain ⟨hsprite, hsound⟩ := not_infix_of_parseOrSource h
  exact parse_toText_of_not_infix c hsprite hsound

/-- Two parentheses before the sprites, pixels and bytes among blanks, half a byte too many, and
    both marks again among the sounds. -/
def scribbled : String :=
  "1 . ( one ( two\n--SPRITE DATA------\n1 2)\tf)\n--SOUND DATA--------\n7 x ) 35\n--SPRITE DATA------\n" ++
    "z\n--SOUND DATA--------\n9 (("

theorem parse_toText_of_parseOrSource_scribbled :
    ∃ c, parseOrSource scribbled = .ok c ∧ c.source = "1 . ( one " ∧ parse c.toText = .ok c := by
  have hsource : (parseOrSource scribbled).toOption.map Cart.source = some "1 . ( one " := by decide +kernel
  cases h : parseOrSource scribbled with
  | error e => rw [h] at hsource; cases hsource
  | ok c =>
    rw [h] at hsource
    exact ⟨c, rfl, Option.some.inj hsource, parse_toText_of_parseOrSource h⟩

end Cart

end Handheld
