/-
  Handheld.Proofs.Scanning — a source is read without loss.

  A source is read by three calls in any order: the next word, the text up to a delimiter, the rest
  of the line. Each takes characters from the front and moves the place over exactly those
  (`passes_scan`), so after any calls the characters taken and those left are the text again, and the
  place is counted from the characters taken alone (`follows_scanAll`). What a call takes and gives
  back is then said of the text that is left: a word is its first run of characters that are not
  blank (`next_eq_some_iff`), a delimiter is found where it first stands behind the one blank that
  may be passed over (`takeUntil_eq_some_iff`), a line ends at its first line feed
  (`skipLine_cases`). `scanning_exact` puts these together for every state that calls lead to.
-/

import Handheld.Proofs.Reading

namespace Handheld.Source

/-! ## The next word -/

theorem next_eq_some_iff {s r : Source} {t : Token} :
    s.next = (some t, r) ↔ ∃ blanks word, s.rest = blanks ++ (word ++ r.rest) ∧
    (∀ c ∈ blanks, Text.isBlank c = true) ∧
      word ≠ [] ∧ (∀ c ∈ word, Text.isBlank c = false) ∧ (∀ c ∈ r.rest.head?, Text.isBlank c = true) ∧
      t = ⟨String.ofList word, s.location.advance blanks⟩ ∧
      r.location = s.location.advance (blanks ++ word) := by
  constructor
  · intro h
    obtain ⟨blanks, hblanks, hrest, hplace, hend, hword, hnext⟩ := next_found h
    obtain ⟨hne, hrun⟩ := Name.isWord_iff.mp hword
    refine ⟨blanks, t.text.toList, hrest, hblanks, hne, hrun, hnext, ?_, ?_⟩
    · rw [String.ofList_toList, ← hplace]
    · rw [hend, hplace, Location.advance_append]
  · rintro ⟨blanks, word, hrest, hblanks, hne, hrun, hnext, rfl, hend⟩
    obtain ⟨l, cs⟩ := s
    obtain ⟨l', ds⟩ := r
    have hword : Name.isWord (String.ofList word) = true := by
      rw [Name.isWord_iff, String.toList_ofList]
      exact ⟨hne, hrun⟩
    have hfound := next_append l (String.ofList word) ds hblanks hword hnext
    dsimp only at hrest hend
    rw [String.toList_ofList, ← Location.advance_append] at hfound
    rw [hrest, hend, hfound]

theorem next_eq_none_iff {s r : Source} :
    s.next = (none, r) ↔ (∀ c ∈ s.rest, Text.isBlank c = true) ∧ r = ⟨s.ending, []⟩ := by
  have hblank (h : ∀ c ∈ s.rest, Text.isBlank c = true) : s.next = (none, ⟨s.ending, []⟩) := by
    have hspan := span_append s.location s.rest [] h (by rintro _ ⟨⟩)
    rw [List.append_nil] at hspan
    rw [next, hspan]
    rfl
  constructor
  · intro h
    have hrest := rest_of_next_none (congrArg Prod.fst h)
    rw [hblank hrest] at h
    exact ⟨hrest, (Prod.mk.inj h).2.symm⟩
  · rintro ⟨hrest, rfl⟩
    exact hblank hrest

/-! ## Up to a delimiter -/

/-- The character a text starts with, if that is blank. -/
def leadingBlank (cs : List Char) : List Char := (cs.take 1).takeWhile Text.isBlank

theorem skipBlank_spec (s : Source) :
    s.rest = leadingBlank s.rest ++ s.skipBlank.rest ∧
      s.skipBlank.location = s.location.advance (leadingBlank s.rest) := by
  obtain ⟨l, cs⟩ := s
  cases cs with
  | nil => exact ⟨rfl, rfl⟩
  | cons c cs =>
    by_cases hc : Text.isBlank c = true
    · simp [skipBlank, tail, leadingBlank, hc, Location.advance]
    · simp [skipBlank, leadingBlank, hc, Location.advance]

theorem takeUntil_of_absent {s : Source} {delim : Char} (h : delim ∉ s.skipBlank.rest) :
    s.takeUntil delim = (none, ⟨s.ending, []⟩) := by
  obtain ⟨hrest, hplace⟩ := s.skipBlank_spec
  have hending : s.skipBlank.ending = s.ending := by
    rw [ending, ending, hplace, ← Location.advance_append, ← hrest]
  rw [takeUntil, span_of_absent h, hending]
  rfl

theorem takeUntil_of_first {s : Source} {delim : Char} {body after : List Char}
    (hrest : s.skipBlank.rest = body ++ delim :: after) (h : delim ∉ body) :
    s.takeUntil delim = (some (String.ofList body),
      ⟨s.location.advance (leadingBlank s.rest ++ (body ++ [delim])), after⟩) := by
  rw [takeUntil, span_of_first hrest h, Location.advance_append, Location.advance_append,
    ← s.skipBlank_spec.2]
  rfl

theorem takeUntil_eq_some_iff {s r : Source} {delim : Char} {body : String} :
    s.takeUntil delim = (some body, r) ↔ s.rest = leadingBlank s.rest ++
      (body.toList ++ delim :: r.rest) ∧ delim ∉ body.toList ∧
      r.location = s.location.advance (leadingBlank s.rest ++ (body.toList ++ [delim])) := by
  have hsplit := s.skipBlank_spec.1
  constructor
  · intro h
    by_cases hdelim : delim ∈ s.skipBlank.rest
    · obtain ⟨before, after, hrest, hbefore⟩ := List.eq_append_cons_of_mem hdelim
      rw [takeUntil_of_first hrest hbefore] at h
      cases h
      rw [String.toList_ofList]
      exact ⟨hrest ▸ hsplit, hbefore, rfl⟩
    · rw [takeUntil_of_absent hdelim] at h
      cases h
  · rintro ⟨hrest, hbody, hplace⟩
    have hafter : s.skipBlank.rest = body.toList ++ delim :: r.rest :=
      List.append_cancel_left (hsplit.symm.trans hrest)
    rw [takeUntil_of_first hafter hbody, String.ofList_toList, ← hplace]

theorem takeUntil_eq_none_iff {s r : Source} {delim : Char} :
    s.takeUntil delim = (none, r) ↔
      (∃ body, s.rest = leadingBlank s.rest ++ body ∧ delim ∉ body) ∧ r = ⟨s.ending, []⟩ := by
  have hsplit := s.skipBlank_spec.1
  constructor
  · intro h
    by_cases hdelim : delim ∈ s.skipBlank.rest
    · obtain ⟨before, after, hrest, hbefore⟩ := List.eq_append_cons_of_mem hdelim
      rw [takeUntil_of_first hrest hbefore] at h
      cases h
    · rw [takeUntil_of_absent hdelim] at h
      exact ⟨⟨_, hsplit, hdelim⟩, (Prod.mk.inj h).2.symm⟩
  · rintro ⟨⟨body, hrest, hbody⟩, rfl⟩
    have hafter : s.skipBlank.rest = body := List.append_cancel_left (hsplit.symm.trans hrest)
    exact takeUntil_of_absent (hafter ▸ hbody)

/-! ## The rest of the line -/

/-- A line is read with its line feed, or the text ends first. -/
theorem skipLine_cases (s : Source) :
    (∃ line, s.rest = line ++ '\n' :: s.skipLine.rest ∧ '\n' ∉ line ∧
      s.skipLine.location = s.location.advance (line ++ ['\n'])) ∨
      '\n' ∉ s.rest ∧ s.skipLine = ⟨s.ending, []⟩ := by
  by_cases hfeed : '\n' ∈ s.rest
  · left
    obtain ⟨line, after, hrest, hline⟩ := List.eq_append_cons_of_mem hfeed
    have hskip : s.skipLine = ⟨s.location.advance (line ++ ['\n']), after⟩ := by
      rw [skipLine, span_of_first hrest hline, Location.advance_append]
      rfl
    rw [hskip]
    exact ⟨line, hrest, hline, rfl⟩
  · right
    refine ⟨hfeed, ?_⟩
    rw [skipLine, span_of_absent hfeed]
    rfl

/-! ## Any calls -/

/-- A call that reads from the front of a source. -/
inductive Scan where
  | next
  | takeUntil (delim : Char)
  | skipLine

/-- The source that a call leaves. -/
def scan (s : Source) : Scan → Source
  | .next => s.next.2
  | .takeUntil delim => (s.takeUntil delim).2
  | .skipLine => s.skipLine

/-- The source that calls leave, one after the other. -/
def scanAll (s : Source) (calls : List Scan) : Source := calls.foldl scan s

theorem passes_scan (s : Source) (call : Scan) : s.Passes (s.scan call) := by
  cases call with
  | next => exact s.passes_next
  | takeUntil delim => exact s.passes_takeUntil delim
  | skipLine => exact s.passes_skipLine

theorem passes_scanAll (s : Source) (calls : List Scan) : s.Passes (s.scanAll calls) := by
  induction calls generalizing s with
  | nil => exact .refl s
  | cons call calls ih => exact (s.passes_scan call).trans (ih (s.scan call))

/-- The source is what follows `read` in the text, and stands at the place behind it. -/
structure Follows (label : String) (text read : List Char) (s : Source) : Prop where
  whole : text = read ++ s.rest
  place : s.location = .behind label read

section

variable {label : String} {text read : List Char} {s : Source}

theorem Follows.advance (h : Follows label text read s) (cs : List Char) :
    s.location.advance cs = .behind label (read ++ cs) := by
  rw [h.place, ← Location.advance_start, ← Location.advance_append, Location.advance_start]

theorem Follows.ending (h : Follows label text read s) : s.ending = .behind label text := by
  rw [Source.ending, h.advance, ← h.whole]

/-- However a text is called upon, what was read and what is left are the text. -/
theorem follows_scanAll (label text : String) (calls : List Scan) :
    ∃ read, Follows label text.toList read ((ofText label text).scanAll calls) := by
  obtain ⟨read, hrest, hplace⟩ := (ofText label text).passes_scanAll calls
  refine ⟨read, hrest, ?_⟩
  rw [hplace, ← Location.advance_start]
  rfl

/-- What each call gives back and leaves, said of the characters `read` before and of those left. -/
structure Exact (label : String) (text read : List Char) (s : Source) :
    Prop extends Follows label text read s where
  /-- The next word is the first run of characters that are not blank, as far as it goes. -/
  next_some (t : Token) (r : Source) : s.next = (some t, r) ↔
    ∃ blanks word, s.rest = blanks ++ (word ++ r.rest) ∧ (∀ c ∈ blanks, Text.isBlank c = true) ∧
      word ≠ [] ∧ (∀ c ∈ word, Text.isBlank c = false) ∧ (∀ c ∈ r.rest.head?, Text.isBlank c = true) ∧
      t = ⟨String.ofList word, .behind label (read ++ blanks)⟩ ∧
      r.location = .behind label (read ++ (blanks ++ word))
  next_none (r : Source) : s.next = (none, r) ↔ (∀ c ∈ s.rest, Text.isBlank c = true) ∧
      r = ⟨.behind label text, []⟩
  /-- One blank may be passed over; then comes the text up to the first delimiter. -/
  takeUntil_some (delim : Char) (body : String) (r : Source) : s.takeUntil delim = (some body, r) ↔
    s.rest = leadingBlank s.rest ++ (body.toList ++ delim :: r.rest) ∧ delim ∉ body.toList ∧
      r.location = .behind label (read ++ (leadingBlank s.rest ++ (body.toList ++ [delim])))
  takeUntil_none (delim : Char) (r : Source) : s.takeUntil delim = (none, r) ↔
    (∃ body, s.rest = leadingBlank s.rest ++ body ∧ delim ∉ body) ∧ r = ⟨.behind label text, []⟩
  skipLine : (∃ line, s.rest = line ++ '\n' :: s.skipLine.rest ∧ '\n' ∉ line ∧
      s.skipLine.location = .behind label (read ++ (line ++ ['\n']))) ∨
    '\n' ∉ s.rest ∧ s.skipLine = ⟨.behind label text, []⟩

theorem Follows.exact (h : Follows label text read s) : Exact label text read s where
  toFollows := h
  next_some t r := by simp only [next_eq_some_iff, h.advance]
  next_none r := by rw [next_eq_none_iff, h.ending]
  takeUntil_some delim body r := by rw [takeUntil_eq_some_iff, h.advance]
  takeUntil_none delim r := by rw [takeUntil_eq_none_iff, h.ending]
  skipLine := by
    have hcases := s.skipLine_cases
    simpa only [h.advance, h.ending] using hcases

end

/-- No call on a source loses, invents or misplaces a character, whatever calls came before it. -/
theorem scanning_exact (label text : String) (calls : List Scan) :
    ∃ read, Exact label text.toList read ((ofText label text).scanAll calls) := by
  obtain ⟨read, h⟩ := follows_scanAll label text calls
  exact ⟨read, h.exact⟩

end Handheld.Source
