/-
  Handheld.Source.Token — source text read from the front.

  A source is the text still to read and the place of its first character. Lines and columns
  count from one and columns count characters. Reading only ever drops characters from the
  front, and the place moves over exactly those.
-/

import Handheld.Text.Blank
import Handheld.Text.Decimal
import Handheld.Text.Quoted

namespace Handheld

/-- A place in a labelled text. -/
structure Location where
  label : String
  line : Nat
  column : Nat
  deriving DecidableEq

namespace Location

def start (label : String) : Location := ⟨label, 1, 1⟩

/-- The place after one character. -/
def step (l : Location) (c : Char) : Location :=
  if c = '\n' then { l with line := l.line + 1, column := 1 } else { l with column := l.column + 1 }

def advance (l : Location) (cs : List Char) : Location := cs.foldl step l

def message (l : Location) : String :=
  l.label ++ ":" ++ Text.showNat l.line ++ ":" ++ Text.showNat l.column

def inspect (l : Location) : String :=
  "Location \x7b label: " ++ Text.quoted l.label ++ ", line: " ++ Text.showNat l.line ++
    ", column: " ++ Text.showNat l.column ++ " \x7d"

end Location

/-- A word of the text, with the place of its first character. -/
structure Token where
  text : String
  location : Location
  deriving DecidableEq

structure Source where
  location : Location
  rest : List Char

namespace Source

def ofText (label text : String) : Source := ⟨.start label, text.toList⟩

/-- Reads the longest run of characters that satisfy `p`. -/
def span (s : Source) (p : Char → Bool) : List Char × Source :=
  let run := s.rest.takeWhile p
  (run, ⟨s.location.advance run, s.rest.dropWhile p⟩)

/-- Drops one character. -/
def tail (s : Source) : Source :=
  match s.rest with
  | [] => s
  | c :: cs => ⟨s.location.step c, cs⟩

/-- The next word; with none left the rest of the text is read. -/
def next (s : Source) : Option Token × Source :=
  let word := (s.span Text.isBlank).2
  let (run, rest) := word.span (!Text.isBlank ·)
  if run.isEmpty then (none, rest) else (some ⟨String.ofList run, word.location⟩, rest)

/-- Drops one blank, if the text starts with one. -/
def skipBlank (s : Source) : Source :=
  match s.rest with
  | c :: _ => if Text.isBlank c then s.tail else s
  | [] => s

/-- The text up to the delimiter, which is read too. A single blank before the text is not
    part of it. Without a delimiter everything is read. -/
def takeUntil (s : Source) (delim : Char) : Option String × Source :=
  let (run, rest) := s.skipBlank.span (· != delim)
  if rest.rest.isEmpty then (none, rest) else (some (String.ofList run), rest.tail)

/-- Reads through the end of the line. -/
def skipLine (s : Source) : Source := (s.span (· != '\n')).2.tail

theorem length_span (s : Source) (p : Char → Bool) : (s.span p).2.rest.length ≤ s.rest.length :=
  (List.dropWhile_sublist p).length_le

theorem length_tail (s : Source) : s.tail.rest.length ≤ s.rest.length := by
  unfold tail
  split
  · exact Nat.le_refl _
  · next c cs h => simp [h]

theorem length_skipBlank (s : Source) : s.skipBlank.rest.length ≤ s.rest.length := by
  unfold skipBlank
  split
  · split
    · exact s.length_tail
    · exact Nat.le_refl _
  · exact Nat.le_refl _

theorem length_takeUntil (s : Source) (d : Char) : (s.takeUntil d).2.rest.length ≤ s.rest.length := by
  have h := Nat.le_trans (s.skipBlank.length_span (· != d)) s.length_skipBlank
  unfold takeUntil
  simp only
  split
  · exact h
  · exact Nat.le_trans (length_tail _) h

theorem length_skipLine (s : Source) : s.skipLine.rest.length ≤ s.rest.length :=
  Nat.le_trans (length_tail _) (s.length_span _)

theorem length_next (s : Source) : s.next.2.rest.length ≤ s.rest.length := by
  have h := Nat.le_trans ((s.span Text.isBlank).2.length_span (!Text.isBlank ·)) (s.length_span _)
  unfold next
  simp only
  split <;> exact h

/-- A word was read, so the text is shorter. -/
theorem length_next_lt {s rest : Source} {t : Token} (h : s.next = (some t, rest)) :
    rest.rest.length < s.rest.length := by
  have hb := s.length_span Text.isBlank
  unfold next at h
  simp only at h
  split at h
  · simp at h
  · next hne =>
    obtain ⟨-, rfl⟩ := Prod.mk.inj h
    generalize (s.span Text.isBlank).2 = w at hb hne
    have hl := congrArg List.length (List.takeWhile_append_dropWhile (p := (!Text.isBlank ·)) (l := w.rest))
    simp only [span, List.length_append] at hl hne ⊢
    have : 0 < (w.rest.takeWhile (!Text.isBlank ·)).length :=
      List.length_pos_iff.mpr (by simpa using hne)
    omega

end Source

end Handheld
