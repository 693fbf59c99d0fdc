/-
  Handheld.Proofs.NameLookup — looking a name up compares fingerprints and finds by text.

  A fingerprint shows a length of at most 255 and 24 bits of a hash, so different names can share
  one, and every comparison goes on to the text. So a lookup gives the newest visible entry whose
  name has the same bytes, and nothing where there is none (`find?_eq_some_iff`,
  `find?_eq_none_iff`), however entries were added, hidden, revealed and dropped before. An entry
  keeps its token, name and kind until the dictionary is cut at or below it (`get?_changes`).
-/

import Handheld.Proofs.Session

namespace Handheld

theorem Text.utf8_inj {s t : String} : utf8 s = utf8 t ↔ s = t := by
  constructor
  · intro h
    rw [← ofUtf8_utf8 s, h, ofUtf8_utf8]
  · rintro rfl
    rfl

namespace Dictionary

variable {σ : Type}

/-! ## The newest entry of a name -/

/-- The entry at a place is visible and its name has the bytes of the name given. -/
def Shows (d : Dictionary σ) (xt : Nat) (name : String) : Prop :=
  ∃ e, d.get? xt = some e ∧ e.hidden = false ∧ Text.utf8 e.name.text = Text.utf8 name

theorem Shows.lt_size {d : Dictionary σ} {xt : Nat} {name : String} (h : d.Shows xt name) : xt < d.size := by
  obtain ⟨e, he, -⟩ := h
  exact (Array.getElem?_eq_some_iff.mp he).1

theorem shows_of_find? {d : Dictionary σ} {name : String} {xt : Nat} (h : d.find? name = some xt) :
    d.Shows xt name := by
  obtain ⟨e, he, hv, hname⟩ := findBelow_eq_some h
  exact ⟨e, he, hv, Text.utf8_inj.mpr hname⟩

/-- The search passes over no entry that shows the name. -/
theorem le_findBelow {d : Dictionary σ} {name : String} {xt : Nat} (h : d.Shows xt name) {n : Nat}
    (hn : xt < n) : ∃ newest, d.findBelow (.ofString name) n = some newest ∧ xt ≤ newest := by
  induction n with
  | zero => omega
  | succ n ih =>
    by_cases hxt : xt = n
    · subst hxt
      obtain ⟨e, he, hv, hname⟩ := h
      have hentry : d.entries[xt]? = some e := he
      have hsame : (e.name == Name.ofString name) = true := (Name.beq_iff _ _).mpr (Text.utf8_inj.mp hname)
      refine ⟨xt, ?_, Nat.le_refl _⟩
      rw [findBelow, hentry]
      simp [hv, hsame]
    · obtain ⟨newest, hfound, hle⟩ := ih (by omega)
      rw [findBelow]
      split
      · split
        · exact ⟨n, rfl, by omega⟩
        · exact ⟨newest, hfound, hle⟩
      · exact ⟨newest, hfound, hle⟩

theorem Shows.le_find? {d : Dictionary σ} {name : String} {xt : Nat} (h : d.Shows xt name) :
    ∃ newest, d.find? name = some newest ∧ xt ≤ newest :=
  le_findBelow h h.lt_size

/-- A lookup gives the greatest place that shows the name. -/
theorem find?_eq_some_iff {d : Dictionary σ} {name : String} {xt : Nat} :
    d.find? name = some xt ↔ d.Shows xt name ∧ ∀ other, d.Shows other name → other ≤ xt := by
  constructor
  · intro h
    refine ⟨shows_of_find? h, fun other hother => ?_⟩
    obtain ⟨newest, hfound, hle⟩ := hother.le_find?
    cases h.symm.trans hfound
    exact hle
  · rintro ⟨hshows, hgreatest⟩
    obtain ⟨newest, hfound, hle⟩ := hshows.le_find?
    rw [hfound, Nat.le_antisymm (hgreatest newest (shows_of_find? hfound)) hle]

theorem find?_eq_none_iff {d : Dictionary σ} {name : String} :
    d.find? name = none ↔ ∀ xt, ¬ d.Shows xt name := by
  constructor
  · intro h xt hshows
    obtain ⟨newest, hfound, -⟩ := hshows.le_find?
    cases h.symm.trans hfound
  · intro h
    cases hfound : d.find? name with
    | none => rfl
    | some xt => exact absurd (shows_of_find? hfound) (h xt)

/-! ## The visible entries -/

/-- The places of the visible entries, the newest first. -/
def visiblePlaces (d : Dictionary σ) : List Nat :=
  (List.range d.size).reverse.filter fun xt => (d.get? xt).any (!·.hidden)

theorem mem_visiblePlaces {d : Dictionary σ} {xt : Nat} :
    xt ∈ d.visiblePlaces ↔ ∃ e, d.get? xt = some e ∧ e.hidden = false := by
  simp only [visiblePlaces, List.mem_filter, List.mem_reverse, List.mem_range, Option.any_eq_true,
    Bool.not_eq_true']
  constructor
  · rintro ⟨-, he⟩
    exact he
  · rintro ⟨e, he, hv⟩
    exact ⟨(Array.getElem?_eq_some_iff.mp he).1, e, he, hv⟩

theorem visiblePlaces_descending (d : Dictionary σ) : d.visiblePlaces.Pairwise (· > ·) :=
  (List.pairwise_reverse.mpr List.pairwise_lt_range).filter _

theorem map_get?_range (d : Dictionary σ) : (List.range d.size).map d.get? = d.entries.toList.map some := by
  refine List.ext_getElem? fun i => ?_
  have hlist : d.entries.toList[i]? = d.get? i := Array.getElem?_toList
  rw [List.getElem?_map, List.getElem?_map, hlist]
  by_cases hi : i < d.size
  · have hentry : d.get? i = some d.entries[i] := Array.getElem?_eq_getElem hi
    rw [List.getElem?_range hi, Option.map_some, hentry, Option.map_some]
  · have hentry : d.get? i = none := Array.getElem?_eq_none (Nat.not_lt.mp hi)
    rw [List.getElem?_eq_none (by simpa using hi), hentry, Option.map_none, Option.map_none]

/-- The visible entries are those at the visible places, in the same order. -/
theorem map_some_visible (d : Dictionary σ) : d.visible.map some = d.visiblePlaces.map d.get? := by
  calc d.visible.map some
      = (d.entries.toList.reverse.map some).filter (Option.any fun e => !e.hidden) := by
        rw [List.filter_map]
        rfl
    _ = ((List.range d.size).reverse.map d.get?).filter (Option.any fun e => !e.hidden) := by
        rw [List.map_reverse, ← map_get?_range, List.map_reverse]
    _ = d.visiblePlaces.map d.get? := List.filter_map

/-! ## Changes -/

/-- What can be done to a dictionary. -/
inductive Change (σ : Type) where
  | push (name : String) (kind : Kind σ)
  | pushHidden (name : String) (kind : Kind σ)
  | reveal (xt : Nat)
  | truncate (size : Nat)

/-- A new entry, hidden or not. -/
def Change.add (name : String) (kind : Kind σ) : Bool → Change σ
  | true => .pushHidden name kind
  | false => .push name kind

/-- The change does not drop the entry at the place. -/
def Change.Spares (xt : Nat) : Change σ → Prop
  | .truncate size => xt < size
  | _ => True

def change (d : Dictionary σ) : Change σ → Dictionary σ
  | .push name kind => (d.push name kind).2
  | .pushHidden name kind => (d.pushHidden name kind).2
  | .reveal xt => d.reveal xt
  | .truncate size => d.truncate size

def changes (d : Dictionary σ) (cs : List (Change σ)) : Dictionary σ := cs.foldl change d

theorem changes_append (d : Dictionary σ) (as bs : List (Change σ)) :
    d.changes (as ++ bs) = (d.changes as).changes bs :=
  List.foldl_append

theorem get?_add (d : Dictionary σ) (name : String) (kind : Kind σ) (hidden : Bool) :
    (d.change (.add name kind hidden)).get? d.size = some ⟨.ofString name, kind, hidden⟩ := by
  cases hidden with
  | true => exact (d.get?_pushHidden name kind d.size).trans (if_pos rfl)
  | false => exact (d.get?_push name kind d.size).trans (if_pos rfl)

/-- One change leaves name and kind of an entry that it spares, and only revealing it shows it. -/
theorem get?_change {d : Dictionary σ} {xt : Nat} {name : Name} {kind : Kind σ} {hidden : Bool}
    (h : d.get? xt = some ⟨name, kind, hidden⟩) {c : Change σ} (hc : c.Spares xt) :
    ∃ hidden', (d.change c).get? xt = some ⟨name, kind, hidden'⟩ ∧
      (hidden' = true ↔ hidden = true ∧ c ≠ .reveal xt) := by
  have hxt : xt ≠ d.size := Nat.ne_of_lt (Array.getElem?_eq_some_iff.mp h).1
  cases c with
  | push name' kind' => exact ⟨hidden, by rw [change, get?_push, if_neg hxt, h], by simp⟩
  | pushHidden name' kind' => exact ⟨hidden, by rw [change, get?_pushHidden, if_neg hxt, h], by simp⟩
  | reveal xt' =>
    by_cases hsame : xt' = xt
    · exact ⟨false, by rw [change, get?_reveal, if_pos hsame, h, Option.map_some], by simp [hsame]⟩
    · exact ⟨hidden, by rw [change, get?_reveal, if_neg hsame, h], by simp [hsame]⟩
  | truncate size =>
    have hlt : xt < size := hc
    exact ⟨hidden, by rw [change, get?_truncate, if_pos hlt, h], by simp⟩

theorem get?_changes {d : Dictionary σ} {xt : Nat} {name : Name} {kind : Kind σ} {hidden : Bool}
    (h : d.get? xt = some ⟨name, kind, hidden⟩) {cs : List (Change σ)} (hcs : ∀ c ∈ cs, c.Spares xt) :
    ∃ hidden', (d.changes cs).get? xt = some ⟨name, kind, hidden'⟩ ∧
      (hidden' = true ↔ hidden = true ∧ .reveal xt ∉ cs) := by
  induction cs generalizing d hidden with
  | nil => exact ⟨hidden, h, by simp⟩
  | cons c cs ih =>
    obtain ⟨hc, hcs⟩ := List.forall_mem_cons.mp hcs
    obtain ⟨hidden₁, hget₁, hiff₁⟩ := get?_change h hc
    obtain ⟨hidden₂, hget₂, hiff₂⟩ := ih hget₁ hcs
    refine ⟨hidden₂, hget₂, ?_⟩
    rw [hiff₂, hiff₁, and_assoc, List.mem_cons, not_or, ne_comm]

/-- After any changes a name is looked up by its bytes alone: the newest visible entry of that name
    is found, and the visible entries are listed from the newest to the oldest. The token of a new
    entry stands for its name and kind until the dictionary is cut at or below it, and then for
    nothing. -/
theorem lookup_by_bytes (cs : List (Change σ)) :
    (∀ name xt, (empty.changes cs).find? name = some xt ↔
      (empty.changes cs).Shows xt name ∧ ∀ other, (empty.changes cs).Shows other name → other ≤ xt) ∧
    (∀ name, (empty.changes cs).find? name = none ↔ ∀ xt, ¬ (empty.changes cs).Shows xt name) ∧
    (∃ places : List Nat, places.Pairwise (· > ·) ∧
      (∀ xt, xt ∈ places ↔ ∃ e, (empty.changes cs).get? xt = some e ∧ e.hidden = false) ∧
      (empty.changes cs).visible.map some = places.map (empty.changes cs).get?) ∧
    ∀ name kind hidden later,
      ((∀ c ∈ later, c.Spares (empty.changes cs).size) →
        ∃ hidden', (empty.changes (cs ++ .add name kind hidden :: later)).get? (empty.changes cs).size =
            some ⟨.ofString name, kind, hidden'⟩ ∧
          (hidden' = true ↔ hidden = true ∧ .reveal (empty.changes cs).size ∉ later)) ∧
      ∀ size ≤ (empty.changes cs).size,
        (empty.changes (cs ++ .add name kind hidden :: later ++ [.truncate size])).get?
          (empty.changes cs).size = none := by
  refine ⟨fun _ _ => find?_eq_some_iff, fun _ => find?_eq_none_iff,
    ⟨_, visiblePlaces_descending _, fun _ => mem_visiblePlaces, map_some_visible _⟩,
    fun name kind hidden later => ⟨fun hlater => ?_, fun size hsize => ?_⟩⟩
  · rw [changes_append]
    exact get?_changes ((empty.changes cs).get?_add name kind hidden) hlater
  · rw [changes_append]
    exact (get?_truncate _ _ _).trans (if_neg (Nat.not_lt.mpr hsize))

/-- Two names with one fingerprint, the first of them also on a later hidden entry. -/
def collidingNames : List (Change Unit) :=
  [.push "xlaioi" (.constant 1), .push "exjbdm" (.constant 2), .pushHidden "xlaioi" (.compiled 0)]

/-- The hidden entry is revealed and nothing is dropped. -/
def uncovering : List (Change Unit) := [.reveal 2, .truncate 4]

theorem lookup_by_bytes_colliding :
    fingerprint "xlaioi" = fingerprint "exjbdm" ∧
    (empty.changes collidingNames).find? "xlaioi" = some 0 ∧
    ¬ (empty.changes collidingNames).Shows 1 "xlaioi" ∧
    (empty.changes collidingNames).find? "exjbdm" = some 1 ∧ (empty.changes collidingNames).Shows 1 "exjbdm" ∧
    (empty.changes (collidingNames ++ .add "exjbdm" (.constant 3) true :: uncovering)).get? 3 =
      some ⟨.ofString "exjbdm", .constant 3, true⟩ ∧
    (empty.changes (collidingNames ++ .add "exjbdm" (.constant 3) true :: uncovering ++
      [.truncate 3])).get? 3 = none := by
  obtain ⟨hfind, -, -, hadd⟩ := lookup_by_bytes collidingNames
  have hfirst : (empty.changes collidingNames).find? "xlaioi" = some 0 := by decide +kernel
  have hsecond : (empty.changes collidingNames).find? "exjbdm" = some 1 := by decide +kernel
  obtain ⟨hkept, hdropped⟩ := hadd "exjbdm" (.constant 3) true uncovering
  have hspared : ∀ c ∈ uncovering, c.Spares 3 :=
    List.forall_mem_cons.mpr ⟨trivial, List.forall_mem_singleton.mpr (Nat.lt_succ_self 3)⟩
  obtain ⟨hidden, hget, hhidden⟩ := hkept hspared
  obtain rfl : hidden = true := hhidden.mpr ⟨rfl, by simp [uncovering, changes, collidingNames, change]⟩
  refine ⟨by decide +kernel, hfirst, fun hshows => ?_, hsecond, ((hfind _ _).mp hsecond).1, hget,
      hdropped 3 (Nat.le_refl 3)⟩
  exact absurd (((hfind _ _).mp hfirst).2 1 hshows) (by decide)

end Dictionary

end Handheld
