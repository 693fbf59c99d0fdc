/-
  Handheld.Proofs.SavedCart — a saved cart still reads as its program.

  The assets are written into one comment behind the source. No closing parenthesis is among them
  (`not_mem_assets`), so the comment ends where it is meant to. A source that leaves a comment of
  its own open only makes that one longer: it swallows the assets and ends at the same place.
-/

import Handheld.Proofs.CartText
import Handheld.Proofs.Pieces

namespace Handheld

variable {σ : Type}

/-! ## The comment with the assets -/

namespace Hex

theorem char_ne_paren (d : Fin 16) : char d ≠ ')' := by
  revert d
  decide

theorem mem_ofByte {b : UInt8} {c : Char} (h : c ∈ ofByte b) : ∃ d, c = char d := by
  simp only [ofByte, List.mem_cons, List.not_mem_nil, or_false] at h
  rcases h with rfl | rfl <;> exact ⟨_, rfl⟩

end Hex

/-- What is written in lines is on one of them or between two. -/
theorem mem_intercalate {c : Char} (lines : List (List Char)) (h : c ∈ List.intercalate ['\n'] lines) :
    (∃ line ∈ lines, c ∈ line) ∨ c = '\n' := by
  induction lines with
  | nil => cases h
  | cons line lines ih =>
    cases lines with
    | nil =>
      rw [List.intercalate_singleton] at h
      exact .inl ⟨line, List.mem_singleton_self line, h⟩
    | cons next lines =>
      rw [List.intercalate_cons_cons, List.append_assoc, List.mem_append, List.singleton_append,
        List.mem_cons] at h
      rcases h with h | h | h
      · exact .inl ⟨line, List.mem_cons_self, h⟩
      · exact .inr h
      · rcases ih h with ⟨l, hl, hc⟩ | hc
        · exact .inl ⟨l, List.mem_cons_of_mem line hl, hc⟩
        · exact .inr hc

/-- A bank is written in digits and line feeds. -/
theorem SoundBank.mem_encode {b : SoundBank} {c : Char} (h : c ∈ b.encode.toList) :
    (∃ d, c = Hex.char d) ∨ c = '\n' := by
  rw [encode, String.toList_ofList] at h
  rcases mem_intercalate _ h with ⟨line, hline, hc⟩ | hc
  · obtain ⟨e, -, rfl⟩ := List.mem_map.mp hline
    obtain ⟨byte, -, hc⟩ := List.mem_flatMap.mp hc
    exact .inl (Hex.mem_ofByte hc)
  · exact .inr hc

namespace Cart

/-- What stands in the comment behind the source. -/
def assets (c : Cart) : List Char :=
  spriteMark ++ (c.sprites.encode.toList ++ (soundMark ++ (c.sounds.encode.toList ++ ['\n'])))

theorem toList_toText_assets (c : Cart) :
    c.toText.toList = c.source.toList ++ (('(' :: c.assets) ++ ')' :: ['\n']) := by
  rw [toList_toText]
  simp [assets]

theorem not_mem_assets (c : Cart) : ')' ∉ c.assets := by
  have hsprite : ')' ∉ spriteMark := by decide
  have hsound : ')' ∉ soundMark := by decide
  have hdigits {cs : List Char} (h : ∀ c ∈ cs, (∃ d, c = Hex.char d) ∨ c = '\n') : ')' ∉ cs := by
    intro hmem
    rcases h _ hmem with ⟨d, hd⟩ | hd
    · exact Hex.char_ne_paren d hd.symm
    · cases hd
  simp only [assets, List.mem_append, not_or]
  exact ⟨hsprite, hdigits fun c hc => SpriteSheet.mem_encode hc, hsound,
      hdigits fun c hc => SoundBank.mem_encode hc, by decide⟩

theorem phrases_assets (c : Cart) (l : Location) :
    Source.phrases ⟨l, ('(' :: c.assets) ++ ')' :: ['\n']⟩ = [.comment true] := by
  have hblank : ∀ d ∈ (c.assets ++ ')' :: ['\n']).head?, Text.isBlank d = true := by
    rintro d ⟨⟩
    rfl
  have hnext :=
    Source.next_append l "(" (c.assets ++ ')' :: ['\n']) (List.forall_mem_nil _) (by decide +kernel) hblank
  have hparen : Reserved.ofText? "(" = some .paren := by decide +kernel
  obtain ⟨body, l', htake⟩ :=
    Source.takeUntil_of_not_mem (s := ⟨(l.advance []).advance "(".toList, []⟩) List.not_mem_nil
    c.not_mem_assets (by decide) ['\n']
  rw [Source.extend, List.nil_append] at htake
  have hread : Source.phrases ⟨l, ('(' :: c.assets) ++ ')' :: ['\n']⟩ = _ := Source.phrases_of_next hnext
  rw [hread]
  simp only [Phrase.read, hparen, htake, Option.isSome_some]
  rw [Source.phrases_of_blank l' (List.forall_mem_singleton.mpr rfl)]

end Cart

namespace Engine

/-- A saved cart reads as its source does, to the same state, if the source is empty or ends with its
    line. -/
theorem interpret_toText {fuel : Nat} {label : String} {c : Cart} {s s' : Engine σ}
    (hline : ∀ d ∈ c.source.toList.getLast?, d = '\n') (h : interpret fuel label c.source s = .ok () s') :
    interpret fuel label c.toText s = .ok () s' := by
  obtain ⟨hread, hmode⟩ := interpret_ok_iff.mp h
  have hparted (more : List Char) : Source.Parted c.source.toList more := by
    left
    intro d hd
    rw [hline d hd]
    rfl
  have hwhole := feedAll_isWhole hread
  have htext : (Source.ofText label c.toText).phrases =
      ((Source.ofText label c.source).extend (('(' :: c.assets) ++ ')' :: ['\n'])).phrases := by
    rw [Source.ofText, Cart.toList_toText_assets]
    rfl
  rw [interpret_ok_iff]
  refine ⟨?_, hmode⟩
  by_cases hopen : .comment false ∈ (Source.ofText label c.source).phrases
  · have hfront : ')' ∉ '(' :: c.assets := List.not_mem_cons_of_ne_of_not_mem (by decide) c.not_mem_assets
    obtain ⟨ps, l, hsource, hmore⟩ :=
      (Source.ofText label c.source).phrases_extend_open (hparted _) hwhole hopen hfront
    have hend : Source.phrases ⟨l, ['\n']⟩ = [] :=
      Source.phrases_of_blank l (List.forall_mem_singleton.mpr rfl)
    rw [hsource, feedAll_comment] at hread
    rw [htext, hmore, hend, feedAll_comment]
    exact hread
  · have hall : ∀ p ∈ (Source.ofText label c.source).phrases, p.isWhole = true := by
      intro p hp
      rcases hwhole p hp with hw | rfl
      · exact hw
      · exact absurd hp hopen
    rcases (Source.ofText label c.source).phrases_extend (hparted _) hall with hsplit | ⟨⟨d, hd, hne⟩, -⟩
    · rw [htext, hsplit, Cart.phrases_assets, feedAll_comment]
      exact hread
    · exact absurd (hline d hd) hne

/-- A cart whose source leaves a comment open. -/
def bellCart : Cart where
  source := ": ring 3 0 do i . loop ;\nring ( three times\n"
  sprites := ⟨SpriteSheet.blank.pixels.setIfInBounds 901 (Color.index 9)⟩
  sounds := SoundBank.silent.set 4 { SoundEffect.silent with duration := 30 }

/-- The engine after the program has run. -/
def rung : Engine Unit := stateAfter (interpret 100 "bell" bellCart.source) fresh

theorem interpret_toText_bell :
    (∀ d ∈ bellCart.source.toList.getLast?, d = '\n') ∧
    interpret 100 "bell" bellCart.source fresh = .ok () rung ∧
    rung.printed = "0 1 2 " ∧ interpret 100 "bell" bellCart.toText fresh = .ok () rung := by
  have hline : ∀ d ∈ bellCart.source.toList.getLast?, d = '\n' := by
    rintro d ⟨⟩
    rfl
  have hread : interpret 100 "bell" bellCart.source fresh = .ok () rung := ok_of_succeeds (by decide +kernel)
  exact ⟨hline, hread, by decide +kernel, interpret_toText hline hread⟩

end Engine

end Handheld
