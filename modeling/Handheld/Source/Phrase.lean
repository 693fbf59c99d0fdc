/-
  Handheld.Source.Phrase — a source as the list of its phrases.

  A phrase is a word together with what it reads ahead: a defining word takes the next word
  as a name, a string and a comment take raw text. Which words do so is fixed, whatever the
  dictionary holds, so a whole text has one reading.
-/

import Handheld.Source.Token

namespace Handheld

/-- Words with a meaning only inside a definition. -/
inductive Control where
  | semicolon
  | if_
  | else_
  | then_
  | begin_
  | until_
  | again_
  | while_
  | repeat_
  | do_
  | loop_
  | plusLoop
  | recurse
  | exit
  deriving DecidableEq

/-- Words that define the name after them. -/
inductive Definer where
  | colon
  | constant
  | variable_
  | create
  deriving DecidableEq

/-- What becomes of a string: it is printed, or its address and length are pushed. -/
inductive StringUse where
  | print
  | push
  deriving DecidableEq

/-- The words whose meaning no definition can change. -/
inductive Reserved where
  | control (k : Control)
  | define (d : Definer)
  | text (u : StringUse)
  | paren
  | backslash
  deriving DecidableEq

namespace Reserved

def table : List (String × Reserved) :=
  [(":", .define .colon), (";", .control .semicolon), ("(", .paren), ("\\", .backslash),
   (".\"", .text .print), ("s\"", .text .push),
   ("if", .control .if_), ("else", .control .else_), ("then", .control .then_),
   ("begin", .control .begin_), ("until", .control .until_), ("again", .control .again_),
   ("while", .control .while_), ("repeat", .control .repeat_),
   ("do", .control .do_), ("loop", .control .loop_), ("+loop", .control .plusLoop),
   ("recurse", .control .recurse), ("exit", .control .exit),
   ("constant", .define .constant), ("variable", .define .variable_), ("create", .define .create)]

def ofText? (word : String) : Option Reserved := table.lookup word

def inspect : Reserved → String
  | .define .colon => "Colon"
  | .control .semicolon => "Semicolon"
  | .paren => "LParen"
  | .backslash => "Backslash"
  | .text .print => "DotQuote"
  | .text .push => "SQuote"
  | .control .if_ => "If"
  | .control .else_ => "Else"
  | .control .then_ => "Then"
  | .control .begin_ => "Begin"
  | .control .until_ => "Until"
  | .control .again_ => "Again"
  | .control .while_ => "While"
  | .control .repeat_ => "Repeat"
  | .control .do_ => "Do"
  | .control .loop_ => "Loop"
  | .control .plusLoop => "PlusLoop"
  | .control .recurse => "Recurse"
  | .control .exit => "Exit"
  | .define .constant => "Constant"
  | .define .variable_ => "Variable"
  | .define .create => "Create"

end Reserved

inductive Phrase where
  | word (t : Token)
  | control (k : Control) (t : Token)
  /-- The name is missing when the text ends first. -/
  | define (d : Definer) (t : Token) (name : Option String)
  /-- The body is missing when no quote closes it. -/
  | text (u : StringUse) (t : Token) (body : Option String)
  | comment (closed : Bool)
  deriving DecidableEq

/-- The phrase that starts with the word `t`, just read from `s`. -/
def Phrase.read (t : Token) (s : Source) : Phrase × Source :=
  match Reserved.ofText? t.text with
  | none => (.word t, s)
  | some (.control k) => (.control k t, s)
  | some (.define d) => (.define d t (s.next.1.map (·.text)), s.next.2)
  | some (.text u) => (.text u t (s.takeUntil '"').1, (s.takeUntil '"').2)
  | some .paren => (.comment (s.takeUntil ')').1.isSome, (s.takeUntil ')').2)
  | some .backslash => (.comment true, s.skipLine)

theorem Phrase.length_read (t : Token) (s : Source) : (Phrase.read t s).2.rest.length ≤ s.rest.length := by
  unfold Phrase.read
  split
  · exact Nat.le_refl _
  · exact Nat.le_refl _
  · exact s.length_next
  · exact s.length_takeUntil _
  · exact s.length_takeUntil _
  · exact s.length_skipLine

/-- The phrases of a text, in order. -/
def Source.phrases (s : Source) : List Phrase :=
  match _h : s.next with
  | (none, _) => []
  | (some t, rest) => (Phrase.read t rest).1 :: (Phrase.read t rest).2.phrases
termination_by s.rest.length
decreasing_by
  exact Nat.lt_of_le_of_lt (Phrase.length_read t rest) (Source.length_next_lt _h)

end Handheld
