/-
  Handheld.Proofs.SpriteGrid — a sheet as a grid, and the rows that stop a program.

  Of the two coordinates of a pixel only the column is compared with the edge of the sheet before the
  place of the pixel is computed. A row far below the sheet is therefore not always outside of it: from
  row 2^57 on, in the columns of the sheet, the place does not fit in 64 bits (`place_of_le`), and
  reading or setting such a pixel stops the program.

  All other pixels are a grid of 128 by 128 and what is outside of it: a pixel shows what the newest
  edit made of it (`pixel?_edited`), a set changes that pixel alone, a set outside changes none.
  `grid_iff_row_fits` says exactly where this holds; `far_row_overflows` is a pixel where it does not.
-/

import Handheld.Proofs.SpriteText
import Mathlib.Data.List.Induction

namespace Handheld

namespace Color

/-- The four low bits of a cell in two's complement. -/
def lowBits (color : Cell) : Nat := (color.toInt % 16).toNat

theorem val_index (color : Cell) : (index color).val = lowBits color := by
  have hlt := color.toUInt32.toNat_lt
  have hsigned : color.toInt = Int.bmod color.toUInt32.toNat 4294967296 := BitVec.toInt_eq_toNat_bmod _
  have hlow : (index color).val = color.toUInt32.toNat % 16 := rfl
  rw [hlow, lowBits, hsigned]
  simp only [Int.bmod]
  omega

theorem lowBits_lt (color : Cell) : lowBits color < 16 := by
  rw [← val_index]
  exact (index color).isLt

end Color

theorem Hex.value?_lt {c : Char} {v : Nat} (h : value? c = some v) : v < 16 := by
  rw [← map_digit?] at h
  obtain ⟨d, -, rfl⟩ := Option.map_eq_some_iff.mp h
  exact d.isLt

namespace SpriteSheet

/-! ## Places -/

def height : Nat := 128

/-- The first row whose pixels have no places in 64 bits. -/
def rowLimit : Nat := 144115188075855872

def OnSheet (x y : Nat) : Prop := x < width ∧ y < height

/-- The column is one of the sheet, so that the place is computed, but the row is too far below. -/
def Overflows (x y : Nat) : Prop := x < width ∧ rowLimit ≤ y

instance (x y : Nat) : Decidable (OnSheet x y) := inferInstanceAs (Decidable (_ ∧ _))

instance (x y : Nat) : Decidable (Overflows x y) := inferInstanceAs (Decidable (_ ∧ _))

theorem OnSheet.not_overflows {x y : Nat} (h : OnSheet x y) : ¬ Overflows x y := by
  intro hover
  have hlimit : height < rowLimit := by decide
  have hrow := h.2
  have hfar := hover.2
  omega

/-- Below the limit every row fits with all its columns, for a row is a power of two wide. -/
theorem place_of_lt {x y : Nat} (hx : x < width) (hy : y < rowLimit) : place x y = .ok (y * width + x) := by
  refine place_of_fits ?_
  simp only [width, rowLimit, UInt64.size] at hx hy ⊢
  omega

theorem place_of_le (x : Nat) {y : Nat} (hy : rowLimit ≤ y) : place x y = .error .multiply := by
  have hstart : Size.mul y width = .error .multiply := by
    refine if_neg ?_
    simp only [width, rowLimit, UInt64.size] at hy ⊢
    omega
  rw [place, hstart]
  rfl

theorem OnSheet.number_lt {x y : Nat} (h : OnSheet x y) : y * width + x < 16384 := by
  obtain ⟨hx, hy⟩ := h
  simp only [width, height] at hx hy ⊢
  omega

theorem OnSheet.place_eq {x y : Nat} (h : OnSheet x y) : place x y = .ok (y * width + x) :=
  place_of_lt h.1 (Nat.lt_trans h.2 (by decide))

theorem le_number_of_not_onSheet {x y : Nat} (hx : x < width) (h : ¬ OnSheet x y) :
    16384 ≤ y * width + x := by
  have hy : height ≤ y := Nat.not_lt.mp fun hlt => h ⟨hx, hlt⟩
  simp only [width, height] at hy ⊢
  omega

theorem number_inj {x y x' y' : Nat} (hx : x < width) (hx' : x' < width) :
    y * width + x = y' * width + x' ↔ x' = x ∧ y' = y := by
  simp only [width] at hx hx' ⊢
  omega

/-! ## Reading and setting a pixel -/

section

variable (s : SpriteSheet) {x y : Nat}

theorem get?_of_overflows (h : Overflows x y) : s.get? x y = .error .multiply := by
  rw [get?, if_pos h.1, place_of_le x h.2]
  rfl

theorem set_of_overflows (h : Overflows x y) (color : Cell) : s.set x y color = .error .multiply := by
  rw [set, if_pos h.1, place_of_le x h.2]
  rfl

theorem get?_of_onSheet (h : OnSheet x y) : s.get? x y = .ok s.pixels[y * width + x]? := by
  rw [get?, if_pos h.1, h.place_eq]
  rfl

theorem set_of_onSheet (h : OnSheet x y) (color : Cell) :
    s.set x y color = .ok ⟨s.pixels.setIfInBounds (y * width + x) (Color.index color)⟩ := by
  rw [set, if_pos h.1, h.place_eq]
  rfl

theorem get?_of_outside (hover : ¬ Overflows x y) (h : ¬ OnSheet x y) : s.get? x y = .ok none := by
  rw [get?]
  by_cases hx : x < width
  · have hy : y < rowLimit := Nat.not_le.mp fun hle => hover ⟨hx, hle⟩
    have hnone : s.pixels[y * width + x]? = none := Vector.getElem?_eq_none (le_number_of_not_onSheet hx h)
    rw [if_pos hx, place_of_lt hx hy]
    exact congrArg Except.ok hnone
  · rw [if_neg hx]
    rfl

theorem set_of_outside (hover : ¬ Overflows x y) (h : ¬ OnSheet x y) (color : Cell) :
    s.set x y color = .ok s := by
  rw [set]
  by_cases hx : x < width
  · have hy : y < rowLimit := Nat.not_le.mp fun hle => hover ⟨hx, hle⟩
    have hsame : s.pixels.setIfInBounds (y * width + x) (Color.index color) = s.pixels :=
      Vector.setIfInBounds_eq_of_size_le (le_number_of_not_onSheet hx h)
    rw [if_pos hx, place_of_lt hx hy]
    exact congrArg (fun pixels => Except.ok (SpriteSheet.mk pixels)) hsame
  · rw [if_neg hx]
    rfl

theorem isSome_get?_of_onSheet (h : OnSheet x y) : ∃ p, s.get? x y = .ok (some p) := by
  rw [s.get?_of_onSheet h, Vector.getElem?_eq_getElem h.number_lt]
  exact ⟨_, rfl⟩

/-- A set that does not stop the program changes one pixel of the sheet, or none. -/
theorem set_eq (hover : ¬ Overflows x y) (color : Cell) :
    ∃ t, s.set x y color = .ok t ∧ (¬ OnSheet x y → t = s) ∧ ∀ x' y', t.get? x' y' =
      if OnSheet x y ∧ x' = x ∧ y' = y then .ok (some (Color.index color)) else s.get? x' y' := by
  by_cases hon : OnSheet x y
  · refine ⟨_, s.set_of_onSheet hon color, fun hoff => absurd hon hoff, fun x' y' => ?_⟩
    by_cases hon' : OnSheet x' y'
    · rw [get?_of_onSheet _ hon', get?_of_onSheet _ hon', Vector.getElem?_setIfInBounds, if_pos hon.number_lt]
      simp only [number_inj hon.1 hon'.1, hon, true_and, apply_ite Except.ok]
    · have hother : ¬ (OnSheet x y ∧ x' = x ∧ y' = y) := by
        intro hsame
        obtain ⟨-, rfl, rfl⟩ := hsame
        exact hon' hon
      rw [if_neg hother]
      by_cases hover' : Overflows x' y'
      · rw [get?_of_overflows _ hover', get?_of_overflows _ hover']
      · rw [get?_of_outside _ hover' hon', get?_of_outside _ hover' hon']
  · refine ⟨s, s.set_of_outside hover hon color, fun _ => rfl, fun x' y' => ?_⟩
    rw [if_neg fun hsame => hon hsame.1]

end

/-! ## Edits -/

/-- What a program can do to a sheet. -/
inductive Edit where
  | set (x y : UInt64) (color : Cell)
  | decode (text : String)

/-- The sheet that an edit gives, if it gives one. -/
def Edit.result? (s : SpriteSheet) : Edit → Option SpriteSheet
  | .set x y color => (s.set x.toNat y.toNat color).toOption
  | .decode text => (SpriteSheet.decode text.toList).toOption

/-- An edit that fails leaves the sheet. -/
def edit (s : SpriteSheet) (e : Edit) : SpriteSheet := (e.result? s).getD s

def edited (edits : List Edit) : SpriteSheet := edits.foldl edit blank

/-- What an edit makes of a pixel of the sheet, unless it leaves it. A text that can be read paints
    every pixel. -/
def Edit.paint? (x y : Nat) : Edit → Option Nat
  | .set x' y' color => if x'.toNat = x ∧ y'.toNat = y then some (Color.lowBits color) else none
  | .decode text =>
    if text.toList.all isReadable then
      some (((text.toList.filterMap Hex.value?)[y * width + x]?).getD 0)
    else none

/-- What the newest edit that painted a pixel made of it. -/
def painted (edits : List Edit) (x y : Nat) : Nat := (edits.reverse.findSome? (·.paint? x y)).getD 0

theorem painted_append (edits : List Edit) (e : Edit) (x y : Nat) :
    painted (edits ++ [e]) x y = (e.paint? x y).getD (painted edits x y) := by
  rw [painted, List.reverse_append, List.reverse_singleton, List.singleton_append, List.findSome?_cons]
  cases e.paint? x y <;> rfl

/-- Low bits and digits are all below sixteen. -/
theorem Edit.paint?_lt {e : Edit} {x y v : Nat} (h : e.paint? x y = some v) : v < 16 := by
  cases e with
  | set x' y' color =>
    rw [paint?] at h
    split at h
    · cases h
      exact Color.lowBits_lt color
    · cases h
  | decode text =>
    rw [paint?] at h
    split at h
    · cases h
      cases hdigit : (text.toList.filterMap Hex.value?)[y * width + x]? with
      | none => exact Nat.zero_lt_succ 15
      | some v =>
        obtain ⟨c, -, hc⟩ := List.mem_filterMap.mp (List.mem_of_getElem? hdigit)
        exact Hex.value?_lt hc
    · cases h

theorem painted_lt (edits : List Edit) (x y : Nat) : painted edits x y < 16 := by
  induction edits using List.reverseRecOn with
  | nil => exact Nat.zero_lt_succ 15
  | append_singleton edits e ih =>
    rw [painted_append]
    cases h : e.paint? x y with
    | none => exact ih
    | some v => exact e.paint?_lt h

theorem pixel?_blank {x y : Nat} (h : OnSheet x y) : blank.pixel? x y = .ok (some 0) := by
  have hpixel : blank.pixels[y * width + x]? = some Color.transparent := by
    rw [blank, Vector.getElem?_replicate, if_pos h.number_lt]
  rw [pixel?, get?_of_onSheet _ h, hpixel]
  rfl

/-- A readable text makes a new sheet, any other is refused. -/
theorem edit_decode (s : SpriteSheet) (text : String) :
    s.edit (.decode text) = if text.toList.all isReadable then ofDigits (Hex.digits text.toList) else s := by
  by_cases hread : text.toList.all isReadable = true
  · rw [if_pos hread, edit, Edit.result?, decode_of_readable (List.all_eq_true.mp hread)]
    rfl
  · obtain ⟨fault, hfault⟩ : ∃ fault, decode text.toList = .error fault := by
      rw [decode_fails_iff]
      simpa using hread
    rw [if_neg hread, edit, Edit.result?, hfault]
    rfl

theorem pixel?_ofDigits_of_onSheet (ds : List (Fin 16)) {x y : Nat} (h : OnSheet x y) :
    (ofDigits ds).pixel? x y = .ok (some (((ds.map Fin.val)[y * width + x]?).getD 0)) := by
  obtain ⟨hx, hy⟩ := h
  have hnumber : (y * width + x) % width = x ∧ (y * width + x) / width = y ∧ y * width + x < 16384 := by
    simp only [width, height] at hx hy ⊢
    omega
  have hpixel := pixel?_ofDigits ds hnumber.2.2
  rwa [hnumber.1, hnumber.2.1] at hpixel

/-- One edit changes the pixels that it paints. -/
theorem pixel?_edit (s : SpriteSheet) (e : Edit) {x y v : Nat} (h : OnSheet x y)
    (hv : s.pixel? x y = .ok (some v)) :
    (s.edit e).pixel? x y = .ok (some ((e.paint? x y).getD v)) := by
  cases e with
  | set x' y' color =>
    by_cases hover : Overflows x'.toNat y'.toNat
    · have hother : ¬ (x'.toNat = x ∧ y'.toNat = y) := by
        intro hsame
        obtain ⟨rfl, rfl⟩ := hsame
        exact h.not_overflows hover
      rw [edit, Edit.result?, s.set_of_overflows hover, Edit.paint?, if_neg hother]
      exact hv
    · obtain ⟨t, hset, -, ht⟩ := s.set_eq hover color
      have hcond : OnSheet x'.toNat y'.toNat ∧ x = x'.toNat ∧ y = y'.toNat ↔ x'.toNat = x ∧ y'.toNat = y := by
        constructor
        · intro hsame
          exact ⟨hsame.2.1.symm, hsame.2.2.symm⟩
        · intro hsame
          obtain ⟨rfl, rfl⟩ := hsame
          exact ⟨h, rfl, rfl⟩
      have hedit : s.edit (.set x' y' color) = t := by
        rw [edit, Edit.result?, hset]
        rfl
      rw [hedit, pixel?, ht]
      simp only [hcond, Edit.paint?]
      split
      · rw [Option.getD_some, ← Color.val_index]
        rfl
      · exact hv
  | decode text =>
    rw [edit_decode, Edit.paint?]
    split
    · rw [pixel?_ofDigits_of_onSheet _ h, Hex.map_digits, Option.getD_some]
    · exact hv

/-- A pixel of the sheet shows what the newest edit made of it. -/
theorem pixel?_edited (edits : List Edit) {x y : Nat} (h : OnSheet x y) :
    (edited edits).pixel? x y = .ok (some (painted edits x y)) := by
  induction edits using List.reverseRecOn with
  | nil => exact pixel?_blank h
  | append_singleton edits e ih =>
    rw [edited, List.foldl_append, ← edited, painted_append]
    exact (edited edits).pixel?_edit e h ih

/-- The pixels of a sheet, row by row, are what its edits painted. -/
theorem pixels_edited (edits : List Edit) :
    (edited edits).pixels.toList.map Fin.val =
      (List.range (width * height)).map fun k => painted edits (k % width) (k / width) := by
  refine List.ext_getElem? fun k => ?_
  by_cases hk : k < 16384
  · have hon : OnSheet (k % width) (k / width) := by
      simp only [OnSheet, width, height]
      omega
    have hread := (edited edits).pixel?_of_lt hk
    rw [pixel?_edited edits hon] at hread
    have hpainted := Option.some.inj (Except.ok.inj hread)
    have hrange : (List.range (width * height))[k]? = some k := by
      rw [List.getElem?_range]
      exact hk
    rw [List.getElem?_map, List.getElem?_map, hrange, Vector.getElem?_toList,
      Vector.getElem?_eq_getElem hk, Option.map_some, Option.map_some, hpainted]
    rfl
  · have hlength : (List.range (width * height)).length = 16384 := List.length_range
    rw [List.getElem?_eq_none (by simpa using hk),
      List.getElem?_eq_none (by rw [List.length_map, hlength]; omega)]

/-! ## The grid -/

/-- What is said of a pixel that is read or set, and of one that is read after it: the sheet is a grid
    of 128 by 128, nothing outside of it can be seen or changed, and nothing stops the program. -/
structure GridAt (s : SpriteSheet) (x y x' y' : UInt64) (color : Cell) : Prop where
  read : ∃ p, s.get? x.toNat y.toNat = .ok p ∧ (p.isSome = true ↔ OnSheet x.toNat y.toNat)
  write : ∃ t, s.set x.toNat y.toNat color = .ok t ∧ (¬ OnSheet x.toNat y.toNat → t = s) ∧
    t.pixel? x'.toNat y'.toNat =
      if OnSheet x.toNat y.toNat ∧ x' = x ∧ y' = y then .ok (some (Color.lowBits color))
      else s.pixel? x'.toNat y'.toNat

theorem gridAt_of_not_overflows (s : SpriteSheet) {x y : UInt64} (h : ¬ Overflows x.toNat y.toNat)
    (x' y' : UInt64) (color : Cell) : GridAt s x y x' y' color where
  read := by
    by_cases hon : OnSheet x.toNat y.toNat
    · obtain ⟨p, hp⟩ := s.isSome_get?_of_onSheet hon
      exact ⟨some p, hp, iff_of_true rfl hon⟩
    · exact ⟨none, s.get?_of_outside h hon, iff_of_false Bool.false_ne_true hon⟩
  write := by
    obtain ⟨t, hset, houtside, ht⟩ := s.set_eq h color
    refine ⟨t, hset, houtside, ?_⟩
    rw [pixel?, ht]
    simp only [UInt64.toNat_inj]
    split
    · rw [← Color.val_index]
      rfl
    · rfl

theorem not_overflows_of_gridAt {s : SpriteSheet} {x y x' y' : UInt64} {color : Cell}
    (h : GridAt s x y x' y' color) : ¬ Overflows x.toNat y.toNat := by
  intro hover
  obtain ⟨p, hp, -⟩ := h.read
  rw [s.get?_of_overflows hover] at hp
  cases hp

/-- Whatever a sheet went through, reading and setting a pixel obey the rules of a grid unless the row
    is too far below the sheet and the column one of the sheet: then, and only then, both stop the
    program. The pixels are 128 rows of 128, each with what the newest edit made of it, below 16. -/
theorem grid_iff_row_fits (edits : List Edit) (x y x' y' : UInt64) (color : Cell) :
    (GridAt (edited edits) x y x' y' color ↔ ¬ Overflows x.toNat y.toNat) ∧
    (Overflows x.toNat y.toNat → (edited edits).get? x.toNat y.toNat = .error .multiply ∧
      (edited edits).set x.toNat y.toNat color = .error .multiply) ∧
    (OnSheet x.toNat y.toNat → (edited edits).pixel? x.toNat y.toNat =
      .ok (some (painted edits x.toNat y.toNat))) ∧
    (edited edits).pixels.toList.map Fin.val =
      (List.range (width * height)).map (fun k => painted edits (k % width) (k / width)) ∧
    ∀ column row, painted edits column row < 16 := by
  refine ⟨⟨not_overflows_of_gridAt, fun h => gridAt_of_not_overflows _ h x' y' color⟩,
    fun hover => ?_, pixel?_edited edits, pixels_edited edits, painted_lt edits⟩
  exact ⟨get?_of_overflows _ hover, set_of_overflows _ hover color⟩

/-- The last row of the sheet, after a text, a set that stops the program and one that does not. -/
theorem grid_iff_row_fits_last_row :
    ¬ Overflows 3 127 ∧
    GridAt (edited [.decode "1f", .set 3 rowLimit.toUInt64 6, .set 3 127 (-1)]) 3 127 4 127 0 ∧
    (edited [.decode "1f", .set 3 rowLimit.toUInt64 6, .set 3 127 (-1)]).pixel? 3 127 = .ok (some 15) := by
  obtain ⟨hgrid, -, hshown, -⟩ :=
    grid_iff_row_fits [.decode "1f", .set 3 rowLimit.toUInt64 6, .set 3 127 (-1)] 3 127 4 127 0
  have hpainted : painted [.decode "1f", .set 3 rowLimit.toUInt64 6, .set 3 127 (-1)] 3 127 = 15 := by
    decide +kernel
  refine ⟨by decide, hgrid.mpr (by decide), ?_⟩
  rw [← hpainted]
  exact hshown (by decide)

/-- A pixel in row 2^57 is outside the sheet, but it cannot be read as such, and setting it does not
    leave the sheet alone: both stop the program. -/
theorem far_row_overflows :
    ¬ OnSheet 5 144115188075855872 ∧ ¬ GridAt (edited []) 5 144115188075855872 5 0 7 ∧
    (edited []).get? 5 144115188075855872 = .error .multiply ∧
    (edited []).set 5 144115188075855872 7 = .error .multiply := by
  have hover : Overflows 5 144115188075855872 := by decide
  exact ⟨by decide, fun h => not_overflows_of_gridAt h hover, get?_of_overflows _ hover,
      set_of_overflows _ hover 7⟩

end SpriteSheet

end Handheld
