/-
  Handheld.Proofs.Reading — how a text falls into phrases.

  Reading goes from front to back and never looks past the end of the phrase it is at. So a text
  whose phrases are all complete reads the same with more text behind it, and reading then goes
  on there (`phrases_extend`). Two things can join what is read before to what comes after: a
  word at the very end of the first text (`Parted` rules it out) and a line comment there. A
  comment in parentheses that the first text leaves open ends where the second closes it
  (`phrases_extend_open`).

  Where a text stands decides the places of its words and nothing else (`phrases_beside`).
-/

import Handheld.Lexicon.Name
import Handheld.Source.Phrase
import Mathlib.Data.List.Basic
import Mathlib.Data.List.Induction
import Mathlib.Data.List.TakeWhile

namespace Handheld

theorem Name.isWord_iff {text : String} : isWord text = true ↔ text.toList ≠ [] ∧ ∀ c ∈ text.toList,
    Text.isBlank c = false := by
  simp [isWord]

theorem Location.advance_append (l : Location) (xs ys : List Char) :
    l.advance (xs ++ ys) = (l.advance xs).advance ys :=
  List.foldl_append ..

/-- The place behind some characters that begin a text. -/
def Location.behind (label : String) (cs : List Char) : Location :=
  ⟨label, 1 + cs.count '\n', 1 + (cs.reverse.takeWhile (· != '\n')).length⟩

/-- Reading counts the lines, and the characters of the last one. -/
theorem Location.advance_start (label : String) (cs : List Char) :
    (start label).advance cs = behind label cs := by
  induction cs using List.reverseRecOn with
  | nil => rfl
  | append_singleton cs c ih =>
    rw [advance_append, ih]
    by_cases hc : c = '\n'
    · subst hc
      simp [advance, step, behind, Nat.add_assoc]
    · simp [advance, step, behind, hc, Nat.add_comm]

namespace Source

/-! ## Words -/

theorem span_append (l : Location) {p : Char → Bool} (xs ys : List Char) (hxs : ∀ c ∈ xs, p c = true)
    (hys : ∀ c ∈ ys.head?, p c = false) : span ⟨l, xs ++ ys⟩ p = (xs, ⟨l.advance xs, ys⟩) := by
  have htake : ys.takeWhile p = [] := by
    cases ys with
    | nil => rfl
    | cons c ys => exact List.takeWhile_cons_of_neg (by simp [hys c rfl])
  have hdrop : ys.dropWhile p = ys := by
    cases ys with
    | nil => rfl
    | cons c ys => exact List.dropWhile_cons_of_neg (by simp [hys c rfl])
  rw [span, List.takeWhile_append_of_pos hxs, List.dropWhile_append_of_pos hxs, htake, hdrop, List.append_nil]

/-- A word between blanks is the next one. -/
theorem next_append (l : Location) {blanks : List Char} (word : String) (rest : List Char)
    (hblanks : ∀ c ∈ blanks, Text.isBlank c = true) (hword : Name.isWord word = true)
    (hrest : ∀ c ∈ rest.head?, Text.isBlank c = true) :
    next ⟨l, blanks ++ (word.toList ++ rest)⟩ =
      (some ⟨word, l.advance blanks⟩, ⟨(l.advance blanks).advance word.toList, rest⟩) := by
  obtain ⟨hne, hblank⟩ := Name.isWord_iff.mp hword
  have hfirst : ∀ c ∈ (word.toList ++ rest).head?, Text.isBlank c = false := by
    intro c hc
    cases hcs : word.toList with
    | nil => exact absurd hcs hne
    | cons d ds =>
      rw [hcs] at hc
      cases hc
      exact hblank c (by rw [hcs]; exact List.mem_cons_self)
  rw [next, span_append l _ _ hblanks hfirst,
    span_append _ _ _ (fun c hc => by rw [hblank c hc]; rfl) (fun c hc => by rw [hrest c hc]; rfl)]
  simp only [List.isEmpty_iff, hne, if_false, String.ofList_toList]

theorem phrases_of_next {s rest : Source} {t : Token} (h : s.next = (some t, rest)) :
    s.phrases = (Phrase.read t rest).1 :: (Phrase.read t rest).2.phrases := by
  rw [phrases]
  split
  · next hn => rw [h] at hn; cases hn
  · next hn => rw [h] at hn; cases hn; rfl

theorem phrases_of_none {s : Source} (h : s.next.1 = none) : s.phrases = [] := by
  rw [phrases]
  split
  · rfl
  · next hn => rw [hn] at h; cases h

theorem phrases_of_nil {s : Source} (h : s.rest = []) : s.phrases = [] := by
  obtain ⟨l, rest⟩ := s
  subst h
  exact phrases_of_none rfl

/-- Blanks before a text only move its words. -/
theorem phrases_blank_append (l : Location) {blanks : List Char} (more : List Char)
    (h : ∀ c ∈ blanks, Text.isBlank c = true) :
    phrases ⟨l, blanks ++ more⟩ = phrases ⟨l.advance blanks, more⟩ := by
  have hspan :
      (span ⟨l, blanks ++ more⟩ Text.isBlank).2 = (span ⟨l.advance blanks, more⟩ Text.isBlank).2 := by
    rw [span, span, List.takeWhile_append_of_pos h, List.dropWhile_append_of_pos h, Location.advance_append]
  have hnext : next ⟨l, blanks ++ more⟩ = next ⟨l.advance blanks, more⟩ := by
    rw [next, next, hspan]
  cases ht : next ⟨l.advance blanks, more⟩ with
  | mk t rest =>
    rw [ht] at hnext
    cases t with
    | none => rw [phrases_of_none (by rw [hnext]), phrases_of_none (by rw [ht])]
    | some t => rw [phrases_of_next hnext, phrases_of_next ht]

theorem phrases_of_blank (l : Location) {blanks : List Char} (h : ∀ c ∈ blanks, Text.isBlank c = true) :
    phrases ⟨l, blanks⟩ = [] := by
  have happend := phrases_blank_append l [] h
  rw [List.append_nil] at happend
  rw [happend]
  exact phrases_of_nil rfl

/-! ## What is left -/

/-- The place after the last character. -/
def ending (s : Source) : Location := s.location.advance s.rest

/-- `r` is `s` once some characters have been read: it begins behind them, at the place they lead to. -/
def Passes (s r : Source) : Prop := ∃ read, s.rest = read ++ r.rest ∧ r.location = s.location.advance read

theorem Passes.refl (s : Source) : s.Passes s := ⟨[], rfl, rfl⟩

theorem Passes.trans {s r q : Source} (h : s.Passes r) (g : r.Passes q) : s.Passes q := by
  obtain ⟨read, hrest, hlocation⟩ := h
  obtain ⟨more, hmore, hplace⟩ := g
  refine ⟨read ++ more, ?_, ?_⟩
  · rw [hrest, hmore, List.append_assoc]
  · rw [hplace, hlocation, Location.advance_append]

theorem passes_span (s : Source) (p : Char → Bool) : s.Passes (s.span p).2 :=
  ⟨s.rest.takeWhile p, List.takeWhile_append_dropWhile.symm, rfl⟩

theorem passes_tail (s : Source) : s.Passes s.tail := by
  unfold tail
  split
  · exact .refl s
  · next c cs h => exact ⟨[c], h, rfl⟩

theorem passes_skipBlank (s : Source) : s.Passes s.skipBlank := by
  unfold skipBlank
  split
  · split
    · exact s.passes_tail
    · exact .refl s
  · exact .refl s

theorem next_snd (s : Source) : s.next.2 = ((s.span Text.isBlank).2.span (!Text.isBlank ·)).2 := by
  unfold next
  dsimp only
  split <;> rfl

theorem passes_next (s : Source) : s.Passes s.next.2 := by
  rw [next_snd]
  exact (s.passes_span _).trans (passes_span _ _)

theorem passes_of_next {s r : Source} {t : Option Token} (h : s.next = (t, r)) : s.Passes r := by
  have := s.passes_next
  rwa [h] at this

theorem passes_takeUntil (s : Source) (delim : Char) : s.Passes (s.takeUntil delim).2 := by
  have h := s.passes_skipBlank.trans (s.skipBlank.passes_span (· != delim))
  unfold takeUntil
  dsimp only
  split
  · exact h
  · exact h.trans (passes_tail _)

theorem passes_skipLine (s : Source) : s.Passes s.skipLine := (s.passes_span _).trans (passes_tail _)

theorem passes_read (t : Token) (s : Source) : s.Passes (Phrase.read t s).2 := by
  unfold Phrase.read
  split
  · exact .refl s
  · exact .refl s
  · exact s.passes_next
  · exact s.passes_takeUntil _
  · exact s.passes_takeUntil _
  · exact s.passes_skipLine

/-- `r` is what is left of `s`: its last characters, at their places. -/
structure Leaves (s r : Source) : Prop where
  suffix : r.rest <:+ s.rest
  ending : r.ending = s.ending

theorem Passes.leaves {s r : Source} (h : s.Passes r) : s.Leaves r := by
  obtain ⟨read, hrest, hlocation⟩ := h
  refine ⟨⟨read, hrest.symm⟩, ?_⟩
  rw [ending, ending, hlocation, hrest, Location.advance_append]

/-! ## Delimiters -/

/-- Characters before a delimiter are passed over. -/
theorem bne_of_not_mem {delim : Char} {cs : List Char} (h : delim ∉ cs) : ∀ c ∈ cs, (c != delim) = true := by
  intro c hc
  rw [bne_iff_ne]
  rintro rfl
  exact h hc

theorem span_of_absent {s : Source} {delim : Char} (h : delim ∉ s.rest) :
    s.span (· != delim) = (s.rest, ⟨s.ending, []⟩) := by
  have hspan := span_append s.location s.rest [] (bne_of_not_mem h) (by rintro _ ⟨⟩)
  rwa [List.append_nil] at hspan

theorem span_of_first {s : Source} {delim : Char} {before after : List Char}
    (hrest : s.rest = before ++ delim :: after)
    (h : delim ∉ before) : s.span (· != delim) = (before, ⟨s.location.advance before, delim :: after⟩) := by
  obtain ⟨l, cs⟩ := s
  cases hrest
  exact span_append l before (delim :: after) (bne_of_not_mem h) (by rintro _ ⟨⟩; simp)

/-! ## More text -/

/-- The source with more text behind it. -/
def extend (s : Source) (more : List Char) : Source := ⟨s.location, s.rest ++ more⟩

/-- No word runs from the one text into the other. -/
def Parted (xs ys : List Char) : Prop :=
  (∀ c ∈ xs.getLast?, Text.isBlank c = true) ∨ ∀ c ∈ ys.head?, Text.isBlank c = true

theorem getLast?_of_suffix {xs ys : List Char} (h : ys <:+ xs) (hne : ys ≠ []) :
    ys.getLast? = xs.getLast? := by
  obtain ⟨front, rfl⟩ := h
  rw [List.getLast?_append_of_ne_nil front hne]

theorem Parted.suffix {xs ys zs : List Char} (h : Parted xs zs) (hs : ys <:+ xs) : Parted ys zs := by
  by_cases hne : ys = []
  · subst hne
    exact .inl fun c hc => by cases hc
  · rcases h with h | h
    · left
      rw [getLast?_of_suffix hs hne]
      exact h
    · exact .inr h

theorem head?_dropWhile {p : Char → Bool} {l : List Char} {c : Char} (h : c ∈ (l.dropWhile p).head?) :
    p c = false := by
  have hnot := List.head?_dropWhile_not p l
  rw [Option.mem_def.mp h] at hnot
  exact hnot

theorem span_extend (s : Source) {p : Char → Bool} {more : List Char}
    (h : ∀ c ∈ (s.rest.dropWhile p ++ more).head?, p c = false) :
    (s.extend more).span p = ((s.span p).1, (s.span p).2.extend more) := by
  have hs : s.rest ++ more = s.rest.takeWhile p ++ (s.rest.dropWhile p ++ more) := by
    rw [← List.append_assoc, List.takeWhile_append_dropWhile]
  rw [extend, hs, span_append _ _ _ (fun c hc => List.mem_takeWhile_imp hc) h]
  rfl

/-- A run that ends inside the text ends there whatever follows. -/
theorem span_extend_of_ne_nil (s : Source) {p : Char → Bool} (more : List Char) (h : (s.span p).2.rest ≠ []) :
    (s.extend more).span p = ((s.span p).1, (s.span p).2.extend more) := by
  refine s.span_extend fun c hc => ?_
  have hrest : s.rest.dropWhile p ≠ [] := h
  rw [List.head?_append_of_ne_nil _ hrest] at hc
  exact head?_dropWhile hc

theorem tail_extend (s : Source) (more : List Char) (h : s.rest ≠ []) :
    (s.extend more).tail = s.tail.extend more := by
  obtain ⟨l, rest⟩ := s
  cases rest with
  | nil => exact absurd rfl h
  | cons c cs => rfl

theorem skipBlank_extend (s : Source) (more : List Char) (h : s.rest ≠ []) :
    (s.extend more).skipBlank = s.skipBlank.extend more := by
  obtain ⟨l, rest⟩ := s
  cases rest with
  | nil => exact absurd rfl h
  | cons c cs =>
    simp only [skipBlank, extend, List.cons_append]
    split <;> rfl

/-- A word was found: where it begins and what is behind it. -/
theorem next_eq_some {s r : Source} {t : Token} (h : s.next = (some t, r)) :
    ((s.span Text.isBlank).2.span (!Text.isBlank ·)).1 ≠ [] ∧
    r = ((s.span Text.isBlank).2.span (!Text.isBlank ·)).2 := by
  have hr := s.next_snd
  rw [h] at hr
  refine ⟨fun hnil => ?_, hr⟩
  rw [next] at h
  simp only [hnil] at h
  cases h

/-- A word that the end of the text ends reaches up to there. -/
theorem last_of_next {s r : Source} {t : Token} (h : s.next = (some t, r)) (hr : r.rest = []) :
    ∃ c ∈ s.rest.getLast?, Text.isBlank c = false := by
  obtain ⟨hne, rfl⟩ := next_eq_some h
  have hword := List.dropWhile_eq_nil_iff.mp hr
  have hrest : (s.span Text.isBlank).2.rest ≠ [] := by
    intro hnil
    refine hne ?_
    rw [span, hnil]
    rfl
  refine ⟨(s.span Text.isBlank).2.rest.getLast hrest, ?_, ?_⟩
  · rw [← getLast?_of_suffix (s.passes_span Text.isBlank).leaves.suffix hrest]
    exact List.getLast?_eq_some_getLast hrest
  · simpa using hword _ (List.getLast_mem hrest)

theorem next_extend {s r : Source} {t : Token} {more : List Char} (hp : Parted s.rest more)
    (h : s.next = (some t, r)) : (s.extend more).next = (some t, r.extend more) := by
  obtain ⟨hne, hr⟩ := next_eq_some h
  have hblanks : (s.span Text.isBlank).2.rest ≠ [] := by
    intro hnil
    refine hne ?_
    simp only [span] at hnil ⊢
    rw [hnil]
    rfl
  have hword : ∀ c ∈ ((s.span Text.isBlank).2.rest.dropWhile (!Text.isBlank ·) ++ more).head?,
      (!Text.isBlank c) = false := by
    intro c hc
    by_cases hrest : r.rest = []
    · rcases hp with hp | hp
      · obtain ⟨d, hd, hword⟩ := last_of_next h hrest
        rw [hp d hd] at hword
        cases hword
      · rw [hr] at hrest
        have hmore : c ∈ more.head? := by
          simp only [span] at hrest hc
          rwa [hrest] at hc
        rw [hp c hmore]
        rfl
    · have hrest : (s.span Text.isBlank).2.rest.dropWhile (!Text.isBlank ·) ≠ [] := by rwa [hr] at hrest
      rw [List.head?_append_of_ne_nil _ hrest] at hc
      exact head?_dropWhile (p := (!Text.isBlank ·)) hc
  rw [next] at h ⊢
  rw [s.span_extend_of_ne_nil more hblanks]
  dsimp only at h ⊢
  rw [span_extend _ hword]
  dsimp only
  rw [if_neg (by simpa using hne)] at h ⊢
  cases h
  rfl

theorem takeUntil_extend {s r : Source} {delim : Char} {body : String}
    (h : s.takeUntil delim = (some body, r))
    (more : List Char) : (s.extend more).takeUntil delim = (some body, r.extend more) := by
  have hfound : (s.skipBlank.span (· != delim)).2.rest ≠ [] := by
    intro hnil
    rw [takeUntil] at h
    simp only [hnil] at h
    cases h
  have hrest : s.rest ≠ [] := by
    intro hnil
    have hsuffix := (s.passes_skipBlank.trans (s.skipBlank.passes_span (· != delim))).leaves.suffix
    rw [hnil] at hsuffix
    exact hfound (List.suffix_nil.mp hsuffix)
  rw [takeUntil] at h ⊢
  rw [s.skipBlank_extend more hrest, span_extend_of_ne_nil _ more hfound]
  dsimp only at h ⊢
  rw [if_neg (by simpa using hfound)] at h
  rw [if_neg (by simp [extend, hfound]), tail_extend _ more hfound]
  cases h
  rfl

theorem mem_skipBlank {s : Source} {c : Char} (hc : c ∈ s.rest) (hblank : Text.isBlank c = false) :
    c ∈ s.skipBlank.rest := by
  obtain ⟨l, rest⟩ := s
  cases rest with
  | nil => exact hc
  | cons d ds =>
    simp only [skipBlank]
    split
    · next hd =>
      rcases List.mem_cons.mp hc with rfl | hc
      · rw [hblank] at hd
        cases hd
      · exact hc
    · exact hc

/-- No delimiter was found: there is none, and all was read. -/
theorem takeUntil_eq_none {s : Source} {delim : Char} (hdelim : Text.isBlank delim = false)
    (h : (s.takeUntil delim).1 = none) : delim ∉ s.rest ∧ (s.takeUntil delim).2.rest = [] := by
  have hrest : (s.skipBlank.span (· != delim)).2.rest = [] := by
    by_contra hne
    rw [takeUntil] at h
    dsimp only at h
    rw [if_neg (by simpa using hne)] at h
    cases h
  constructor
  · intro hmem
    simpa using List.dropWhile_eq_nil_iff.mp hrest delim (mem_skipBlank hmem hdelim)
  · rw [takeUntil]
    dsimp only
    rw [if_pos (by simpa using hrest)]
    exact hrest

/-- A delimiter that comes later is found there. -/
theorem takeUntil_of_not_mem {s : Source} {delim : Char} (hs : delim ∉ s.rest) {front : List Char}
    (hfront : delim ∉ front) (hdelim : Text.isBlank delim = false) (more : List Char) :
    ∃ body l, (s.extend (front ++ delim :: more)).takeUntil delim = (some body, ⟨l, more⟩) := by
  obtain ⟨l, cs, hskip, hcs⟩ : ∃ l cs, (s.extend (front ++ delim :: more)).skipBlank =
      ⟨l, cs ++ delim :: more⟩ ∧ delim ∉ cs := by
    have hall : delim ∉ s.rest ++ front := by simp [hs, hfront]
    have htext : s.extend (front ++ delim :: more) = ⟨s.location,
        (s.rest ++ front) ++ delim :: more⟩ := by simp [extend]
    rw [htext]
    cases hx : s.rest ++ front with
    | nil => exact ⟨s.location, [], by simp [skipBlank, hdelim], by simp⟩
    | cons c cs =>
      rw [hx] at hall
      simp only [skipBlank, List.cons_append]
      split
      · exact ⟨_, cs, rfl, fun hc => hall (List.mem_cons_of_mem c hc)⟩
      · exact ⟨_, c :: cs, rfl, hall⟩
  have hspan : span ⟨l, cs ++ delim :: more⟩ (· != delim) = (cs, ⟨l.advance cs, delim :: more⟩) :=
    span_of_first rfl hcs
  refine ⟨String.ofList cs, (l.advance cs).step delim, ?_⟩
  rw [takeUntil, hskip, hspan]
  rfl

theorem skipLine_extend {s : Source} (h : '\n' ∈ s.rest) (more : List Char) :
    (s.extend more).skipLine = s.skipLine.extend more := by
  have hrest : (s.span (· != '\n')).2.rest ≠ [] := by
    intro hnil
    simpa using List.dropWhile_eq_nil_iff.mp hnil _ h
  rw [skipLine, s.span_extend_of_ne_nil more hrest, tail_extend _ more hrest]
  rfl

/-- Without an end of line the comment goes on in the text behind. -/
theorem skipLine_of_not_mem {s : Source} (h : '\n' ∉ s.rest) (more : List Char) :
    (s.extend more).skipLine = skipLine ⟨s.ending, more⟩ := by
  have hline := bne_of_not_mem h
  rw [skipLine, skipLine, extend, span, span, List.takeWhile_append_of_pos hline,
    List.dropWhile_append_of_pos hline, Location.advance_append]
  rfl

theorem rest_skipLine_of_not_mem {s : Source} (h : '\n' ∉ s.rest) : s.skipLine.rest = [] := by
  have hskip := skipLine_of_not_mem h []
  rw [extend, List.append_nil] at hskip
  rw [hskip]
  rfl

end Source

/-! ## Phrases -/

/-- Whether the text had all that the phrase needs. -/
def Phrase.isWhole : Phrase → Bool
  | .define _ _ name => name.isSome
  | .text _ _ body => body.isSome
  | .comment closed => closed
  | .word _ | .control _ _ => true

namespace Source

/-- A whole phrase reads the same with more text behind it, unless it is a comment that goes on
    there. -/
theorem read_extend {t : Token} {s : Source} {more : List Char} (hp : Parted s.rest more)
    (h : (Phrase.read t s).1.isWhole = true) :
    Phrase.read t (s.extend more) = ((Phrase.read t s).1, (Phrase.read t s).2.extend more) ∨
      '\n' ∉ s.rest ∧ (Phrase.read t s).2.rest = [] ∧
        Phrase.read t (s.extend more) = ((Phrase.read t s).1, skipLine ⟨s.ending, more⟩) := by
  unfold Phrase.read at h ⊢
  split at h
  · exact .inl rfl
  · exact .inl rfl
  · left
    obtain ⟨name, hname⟩ := Option.isSome_iff_exists.mp h
    obtain ⟨u, hu, -⟩ := Option.map_eq_some_iff.mp hname
    have hnext : s.next = (some u, s.next.2) := Prod.ext hu rfl
    rw [next_extend hp hnext, hnext]
  · left
    obtain ⟨body, hbody⟩ := Option.isSome_iff_exists.mp h
    have htake : s.takeUntil '"' = (some body, (s.takeUntil '"').2) := Prod.ext hbody rfl
    rw [takeUntil_extend htake, htake]
  · left
    obtain ⟨body, hbody⟩ := Option.isSome_iff_exists.mp h
    have htake : s.takeUntil ')' = (some body, (s.takeUntil ')').2) := Prod.ext hbody rfl
    rw [takeUntil_extend htake, htake]
  · by_cases hline : '\n' ∈ s.rest
    · left
      rw [skipLine_extend hline]
    · right
      exact ⟨hline, rest_skipLine_of_not_mem hline, by rw [skipLine_of_not_mem hline]⟩

theorem rest_of_next_none {s : Source} (h : s.next.1 = none) : ∀ c ∈ s.rest, Text.isBlank c = true := by
  have hrun : ((s.span Text.isBlank).2.span (!Text.isBlank ·)).1 = [] := by
    by_contra hne
    rw [next] at h
    dsimp only at h
    rw [if_neg (by simpa using hne)] at h
    cases h
  have hrest : (s.span Text.isBlank).2.rest = [] := by
    cases hcs : (s.span Text.isBlank).2.rest with
    | nil => rfl
    | cons c cs =>
      have hc : Text.isBlank c = false := head?_dropWhile (p := Text.isBlank) (l := s.rest) (by
        simp only [span] at hcs
        rw [hcs]
        rfl)
      simp only [span] at hcs hrun
      rw [hcs, List.takeWhile_cons_of_pos (by simp [hc])] at hrun
      cases hrun
  exact List.dropWhile_eq_nil_iff.mp hrest

/-- A word that was found stands behind blanks, with none in it, and before a blank or the end. -/
theorem next_found {s r : Source} {t : Token} (h : s.next = (some t, r)) :
    ∃ blanks, (∀ c ∈ blanks, Text.isBlank c = true) ∧ s.rest = blanks ++ (t.text.toList ++ r.rest) ∧
      t.location = s.location.advance blanks ∧ r.location = t.location.advance t.text.toList ∧
      Name.isWord t.text = true ∧
      ∀ c ∈ r.rest.head?, Text.isBlank c = true := by
  obtain ⟨hne, rfl⟩ := next_eq_some h
  have ht : t = ⟨String.ofList ((s.span Text.isBlank).2.span (!Text.isBlank ·)).1,
      (s.span Text.isBlank).2.location⟩ := by
    rw [next] at h
    dsimp only at h
    rw [if_neg (by simpa using hne)] at h
    cases h
    rfl
  subst ht
  have hrun : ∀ c ∈ (s.rest.dropWhile Text.isBlank).takeWhile (!Text.isBlank ·), Text.isBlank c = false := by
    intro c hc
    simpa using List.mem_takeWhile_imp hc
  refine ⟨s.rest.takeWhile Text.isBlank, fun c hc => List.mem_takeWhile_imp hc, ?_, rfl, ?_, ?_, ?_⟩
  · simp only [span, String.toList_ofList, List.takeWhile_append_dropWhile]
  · simp only [span, String.toList_ofList]
  · rw [Name.isWord_iff, String.toList_ofList]
    exact ⟨hne, hrun⟩
  · intro c hc
    simpa using head?_dropWhile (p := (!Text.isBlank ·)) hc

/-- A word among the phrases of a text stands somewhere in it, at its place, and the phrases after
    it are those of the text behind it. -/
theorem phrases_split {s : Source} {t : Token} {ps qs : List Phrase} (h : s.phrases = ps ++ .word t :: qs) :
    ∃ before after, s.rest = before ++ (t.text.toList ++ after) ∧ t.location = s.location.advance before ∧
      phrases ⟨t.location.advance t.text.toList, after⟩ = qs := by
  induction s using Source.phrases.induct generalizing ps with
  | case1 s r hnone =>
    rw [phrases_of_none (by rw [hnone])] at h
    simp at h
  | case2 s u r hsome ih =>
    obtain ⟨blanks, -, hrest, hplace, hr, -, -⟩ := next_found hsome
    rw [phrases_of_next hsome] at h
    cases ps with
    | nil =>
      obtain ⟨hword, hqs⟩ := List.cons.inj h
      have hread : Phrase.read u r = (.word u, r) ∧ u = t := by
        unfold Phrase.read at hword ⊢
        split at hword
        · exact ⟨rfl, Phrase.word.inj hword⟩
        all_goals cases hword
      obtain ⟨hread, rfl⟩ := hread
      rw [hread] at hqs
      refine ⟨blanks, r.rest, hrest, hplace, ?_⟩
      rw [← hr]
      exact hqs
    | cons p ps =>
      obtain ⟨before, after, hbefore, hlocation, hlater⟩ := ih (List.cons.inj h).2
      obtain ⟨read, hpassed, hthere⟩ := (passes_of_next hsome).trans (passes_read u r)
      refine ⟨read ++ before, after, ?_, ?_, hlater⟩
      · rw [hpassed, hbefore, List.append_assoc]
      · rw [hlocation, hthere, Location.advance_append]

theorem phrases_extend_of_none {s : Source} (h : s.next.1 = none) (more : List Char) :
    (s.extend more).phrases = phrases ⟨s.ending, more⟩ :=
  phrases_blank_append s.location more (rest_of_next_none h)

/-- A text of whole phrases reads the same with more text behind it. If it does not end with its
    line, its last comment may go on there. -/
theorem phrases_extend (s : Source) {more : List Char} (hp : Parted s.rest more)
    (h : ∀ p ∈ s.phrases, p.isWhole = true) :
    (s.extend more).phrases = s.phrases ++ phrases ⟨s.ending, more⟩ ∨
      (∃ c ∈ s.rest.getLast?, c ≠ '\n') ∧
        (s.extend more).phrases = s.phrases ++ (skipLine ⟨s.ending, more⟩).phrases := by
  induction s using Source.phrases.induct with
  | case1 s r hnone =>
    left
    have hnone : s.next.1 = none := by rw [hnone]
    rw [phrases_extend_of_none hnone, phrases_of_none hnone, List.nil_append]
  | case2 s t r hsome ih =>
    have hleft := (passes_of_next hsome).leaves
    have hpr := hp.suffix hleft.suffix
    have hread := (passes_read t r).leaves
    rw [phrases_of_next hsome] at h
    rw [phrases_of_next hsome, phrases_of_next (next_extend hp hsome)]
    have hwhole := h _ List.mem_cons_self
    rcases read_extend hpr hwhole with hsame | ⟨hline, hrest, hgoes⟩
    · rw [hsame]
      have hending : (Phrase.read t r).2.ending = s.ending := hread.ending.trans hleft.ending
      rcases ih (hpr.suffix hread.suffix) (fun p hp => h p (List.mem_cons_of_mem _ hp))
          with hih | ⟨⟨c, hc, hne⟩, hih⟩
      · left
        dsimp only
        rw [hih, hending]
        rfl
      · right
        have hsuffix := hread.suffix.trans hleft.suffix
        have hnil : (Phrase.read t r).2.rest ≠ [] := by
          intro hnil
          rw [hnil] at hc
          cases hc
        refine ⟨⟨c, ?_, hne⟩, ?_⟩
        · rwa [← getLast?_of_suffix hsuffix hnil]
        · dsimp only
          rw [hih, hending]
          rfl
    · right
      refine ⟨?_, ?_⟩
      · by_cases hnil : r.rest = []
        · obtain ⟨c, hc, hblank⟩ := last_of_next hsome hnil
          refine ⟨c, hc, ?_⟩
          rintro rfl
          revert hblank
          decide
        · refine ⟨r.rest.getLast hnil, ?_, ?_⟩
          · rw [← getLast?_of_suffix hleft.suffix hnil]
            exact List.getLast?_eq_some_getLast hnil
          · intro hc
            exact hline (hc ▸ List.getLast_mem hnil)
      · rw [hgoes, phrases_of_nil hrest, hleft.ending]
        rfl

/-- Only a parenthesis opens a comment that can stay open, and then it takes all there is. -/
theorem read_eq_open {t : Token} {s : Source} (h : (Phrase.read t s).1 = .comment false) :
    Reserved.ofText? t.text = some .paren ∧ ')' ∉ s.rest ∧ (Phrase.read t s).2.rest = [] := by
  cases hr : Reserved.ofText? t.text with
  | none => simp [Phrase.read, hr] at h
  | some r =>
    cases r with
    | paren =>
      simp only [Phrase.read, hr, Phrase.comment.injEq, Option.isSome_eq_false_iff,
        Option.isNone_iff_eq_none] at h ⊢
      exact ⟨trivial, takeUntil_eq_none (by decide) h⟩
    | control | define | text | backslash => simp [Phrase.read, hr] at h

/-- A text that leaves a comment open, and is else of whole phrases, goes on with the comment
    until the text behind closes it. -/
theorem phrases_extend_open (s : Source) {front more : List Char} (hp : Parted s.rest (front ++ ')' :: more))
    (h : ∀ p ∈ s.phrases, p.isWhole = true ∨ p = .comment false) (hopen : .comment false ∈ s.phrases)
    (hfront : ')' ∉ front) :
    ∃ ps l, s.phrases = ps ++ [.comment false] ∧
      (s.extend (front ++ ')' :: more)).phrases = ps ++ .comment true :: phrases ⟨l, more⟩ := by
  induction s using Source.phrases.induct with
  | case1 s r hnone =>
    rw [phrases_of_none (by rw [hnone])] at hopen
    cases hopen
  | case2 s t r hsome ih =>
    have hleft := (passes_of_next hsome).leaves
    have hpr := hp.suffix hleft.suffix
    rw [phrases_of_next hsome] at h hopen
    rw [phrases_of_next hsome, phrases_of_next (next_extend hp hsome)]
    rcases h _ List.mem_cons_self with hwhole | hcomment
    · have hlater : .comment false ∈ (Phrase.read t r).2.phrases := by
        rcases List.mem_cons.mp hopen with he | hlater
        · rw [← he] at hwhole
          cases hwhole
        · exact hlater
      rcases read_extend hpr hwhole with hsame | ⟨-, hrest, -⟩
      · obtain ⟨ps, l, hps, hmore⟩ := ih (hpr.suffix (passes_read t r).leaves.suffix)
          (fun p hp => h p (List.mem_cons_of_mem _ hp)) hlater
        refine ⟨(Phrase.read t r).1 :: ps, l, ?_, ?_⟩
        · rw [hps]
          rfl
        · rw [hsame, hmore]
          rfl
      · rw [phrases_of_nil hrest] at hlater
        cases hlater
    · obtain ⟨hparen, hclose, hrest⟩ := read_eq_open hcomment
      obtain ⟨body, l, htake⟩ := takeUntil_of_not_mem hclose hfront (by decide) more
      refine ⟨[], l, ?_, ?_⟩
      · rw [hcomment, phrases_of_nil hrest]
        rfl
      · have hread : Phrase.read t (r.extend (front ++ ')' :: more)) = (.comment true, ⟨l, more⟩) := by
          simp only [Phrase.read, hparen, htake, Option.isSome_some]
        rw [hread]
        rfl

/-! ## Places -/

/-- The same text, at places that `R` relates. -/
structure Beside (R : Location → Location → Prop) (s s' : Source) : Prop where
  rest : s'.rest = s.rest
  location : R s.location s'.location

end Source

/-- The phrase with its words at other places. -/
def Token.relocate (g : Location → Location) (t : Token) : Token := { t with location := g t.location }

def Phrase.relocate (g : Location → Location) : Phrase → Phrase
  | .word t => .word (t.relocate g)
  | .control k t => .control k (t.relocate g)
  | .define d t name => .define d (t.relocate g) name
  | .text u t body => .text u (t.relocate g) body
  | .comment closed => .comment closed

namespace Source

section

variable {R : Location → Location → Prop} {s s' : Source}

theorem Beside.advance (hR : ∀ l l' c, R l l' → R (l.step c) (l'.step c)) {l l' : Location} (h : R l l')
    (cs : List Char) : R (l.advance cs) (l'.advance cs) := by
  induction cs generalizing l l' with
  | nil => exact h
  | cons c cs ih => exact ih (hR l l' c h)

variable (hR : ∀ l l' c, R l l' → R (l.step c) (l'.step c)) (h : Beside R s s')

include hR h

theorem Beside.span (p : Char → Bool) :
    (s'.span p).1 = (s.span p).1 ∧ Beside R (s.span p).2 (s'.span p).2 := by
  simp only [Source.span, h.rest]
  exact ⟨trivial, rfl, advance hR h.location _⟩

theorem Beside.tail : Beside R s.tail s'.tail := by
  obtain ⟨l, rest⟩ := s
  obtain ⟨l', rest'⟩ := s'
  obtain ⟨rfl, hl⟩ := h
  cases rest' with
  | nil => exact ⟨rfl, hl⟩
  | cons c cs => exact ⟨rfl, hR l l' c hl⟩

theorem Beside.skipBlank : Beside R s.skipBlank s'.skipBlank := by
  have htail := h.tail hR
  unfold Source.skipBlank
  rw [h.rest]
  split
  · split
    · exact htail
    · exact h
  · exact h

theorem Beside.takeUntil (delim : Char) :
    (s'.takeUntil delim).1 = (s.takeUntil delim).1 ∧
    Beside R (s.takeUntil delim).2 (s'.takeUntil delim).2 := by
  obtain ⟨hrun, hspan⟩ := (h.skipBlank hR).span hR (· != delim)
  unfold Source.takeUntil
  dsimp only
  rw [hspan.rest, hrun]
  split
  · exact ⟨rfl, hspan⟩
  · exact ⟨rfl, hspan.tail hR⟩

theorem Beside.skipLine : Beside R s.skipLine s'.skipLine := (h.span hR _).2.tail hR

theorem Beside.next :
    (s.next.1 = none ∧ s'.next.1 = none ∨
      ∃ t t', s.next.1 = some t ∧ s'.next.1 = some t' ∧ t'.text = t.text ∧ R t.location t'.location) ∧
    Beside R s.next.2 s'.next.2 := by
  have hblanks := (h.span hR Text.isBlank).2
  obtain ⟨hrun, hword⟩ := hblanks.span hR (!Text.isBlank ·)
  unfold Source.next
  dsimp only
  rw [hrun]
  split
  · exact ⟨.inl ⟨rfl, rfl⟩, hword⟩
  · exact ⟨.inr ⟨_, _, rfl, rfl, rfl, hblanks.location⟩, hword⟩

end

theorem Beside.read {R : Location → Location → Prop} (hR : ∀ l l' c, R l l' → R (l.step c) (l'.step c))
    {g g' : Location → Location} (hg : ∀ l l', R l l' → g l = g' l') {s s' : Source}
    (h : Beside R s s') {t t' : Token} (htext : t'.text = t.text) (ht : R t.location t'.location) :
    (Phrase.read t s).1.relocate g = (Phrase.read t' s').1.relocate g' ∧
    Beside R (Phrase.read t s).2 (Phrase.read t' s').2 := by
  have htoken : t.relocate g = t'.relocate g' := by
    rw [Token.relocate, Token.relocate, htext, hg _ _ ht]
  unfold Phrase.read
  rw [htext]
  split
  · exact ⟨congrArg Phrase.word htoken, h⟩
  · exact ⟨congrArg (Phrase.control _) htoken, h⟩
  · obtain ⟨hname, hrest⟩ := h.next hR
    refine ⟨?_, hrest⟩
    have hname : s.next.1.map (·.text) = s'.next.1.map (·.text) := by
      rcases hname with ⟨hs, hs'⟩ | ⟨u, u', hs, hs', hu, -⟩
      · rw [hs, hs']
      · rw [hs, hs', Option.map_some, Option.map_some, hu]
    simp only [Phrase.relocate, htoken, hname]
  · obtain ⟨hbody, hrest⟩ := h.takeUntil hR '"'
    exact ⟨by simp only [Phrase.relocate, htoken, hbody], hrest⟩
  · obtain ⟨hbody, hrest⟩ := h.takeUntil hR ')'
    exact ⟨by simp only [Phrase.relocate, hbody], hrest⟩
  · exact ⟨rfl, h.skipLine hR⟩

/-- Where a text stands decides the places of its words, and nothing else. -/
theorem phrases_beside {R : Location → Location → Prop} (hR : ∀ l l' c, R l l' → R (l.step c) (l'.step c))
    {g g' : Location → Location} (hg : ∀ l l', R l l' → g l = g' l') {s s' : Source} (h : Beside R s s') :
    s.phrases.map (Phrase.relocate g) = s'.phrases.map (Phrase.relocate g') := by
  induction s using Source.phrases.induct generalizing s' with
  | case1 s r hnone =>
    have hnone : s.next.1 = none := by rw [hnone]
    have hnone' : s'.next.1 = none := by
      rcases (h.next hR).1 with ⟨-, hs'⟩ | ⟨t, -, hs, -⟩
      · exact hs'
      · rw [hnone] at hs
        cases hs
    rw [phrases_of_none hnone, phrases_of_none hnone']
    rfl
  | case2 s t r hsome ih =>
    obtain ⟨hfirst, hrest⟩ := h.next hR
    rw [hsome] at hfirst hrest
    rcases hfirst with ⟨hs, -⟩ | ⟨u, t', hs, hs', htext, ht⟩
    · cases hs
    · cases hs
      obtain ⟨hread, hleft⟩ := hrest.read hR hg htext ht
      rw [phrases_of_next hsome, phrases_of_next (Prod.ext hs' rfl), List.map_cons, List.map_cons,
        hread, ih hleft]

end Source

end Handheld
