/-
  Handheld.Engine.Compilation — definitions.

  Compiling reads a definition once, from left to right, and lays its code down as it goes. A
  word becomes the cell that holds its execution token; a branch forward is laid down as a
  hole and pointed at its target when the structure ends. The open structures form a stack: a
  word that closes one must fit the innermost.
-/

import Handheld.Engine.Basic

namespace Handheld

/-- The execution token of an instruction the compiler lays down: its place among them. -/
def Primitive.token (p : Primitive) : Nat := runtime.findIdx (·.2 = p)

/-- What an ordinary word stands for. -/
inductive Sense where
  | word (xt : Nat)
  | literal (v : Cell)
  deriving DecidableEq

/-- What a word of source text means. -/
inductive Meaning where
  | reserved (r : Reserved)
  | sense (s : Sense)
  deriving DecidableEq

def Meaning.inspect : Meaning → String
  | .reserved r => r.inspect
  | .sense (.word xt) => "Word \x7b xt: " ++ Text.showNat xt ++ " \x7d"
  | .sense (.literal v) => "Literal \x7b val: " ++ Text.showInt v.toInt ++ " \x7d"

/-- A numeral: an optional minus sign and decimal digits, in the range of a cell. -/
def numeral? (word : String) : Option Cell := (Text.readInt? word.toList).bind Cell.ofInt?

namespace Dictionary

variable {σ : Type}

/-- A word is the newest visible entry of its name, and only otherwise a numeral. -/
def sense? (d : Dictionary σ) (word : String) : Option Sense :=
  match d.find? word with
  | some xt => some (.word xt)
  | none => (numeral? word).map .literal

/-- Reserved words come before the dictionary. -/
def lookup (d : Dictionary σ) (word : String) : Option Meaning :=
  match Reserved.ofText? word with
  | some r => some (.reserved r)
  | none => (d.sense? word).map .sense

/-- The address of the code of a compiled word. -/
def entry? (d : Dictionary σ) (name : String) : Option Nat :=
  match (d.find? name).bind d.get? with
  | some ⟨_, .compiled entry, _⟩ => some entry
  | _ => none

end Dictionary

namespace Engine

variable {σ : Type}

/-- Lays down a cell. -/
def emit (v : Cell) : Session σ Unit := discard (onMemory (Memory.bumpCell v))

/-- Lays down an execution token. -/
def emitToken (xt : Nat) : Session σ Unit :=
  match Cell.ofNat? xt with
  | some v => emit v
  | none => fail (.badToken (-1))

def emitPrimitive (p : Primitive) : Session σ Unit := emitToken p.token

/-- Lays down an instruction and its operand. -/
def emitWith (p : Primitive) (operand : Cell) : Session σ Unit := do
  emitPrimitive p
  emit operand

/-- Lays down a branch without a target and gives the address of the hole. -/
def emitBranch (p : Primitive) : Session σ Nat := do
  emitPrimitive p
  onMemory (Memory.bumpCell 0)

/-- The address the next instruction will have, as a cell. -/
def codeEnd : Session σ Cell := do
  onMachine (Machine.cell (← getHere))

/-- Points a branch at the next instruction. -/
def patch (hole : Nat) : Session σ Unit := do
  let target ← codeEnd
  onMemory (Memory.storeCell hole target)

/-- Lays down a string: its length, its bytes and zeros up to a cell boundary. -/
def emitString (p : Primitive) (text : String) : Session σ Unit := do
  let bytes := Text.utf8 text
  let len ← onMachine (Machine.cell bytes.length)
  emitWith p len
  discard (onMemory (Memory.bumpBytes bytes))
  onMemory Memory.align

def setOpened (d : Draft) (opened : List Open) : Session σ Unit :=
  modify fun s => { s with mode := .compile { d with opened := opened } }

/-- Completes the definition: it returns at its end and can be seen from now on. -/
def closeDraft (d : Draft) : Session σ Unit := do
  emitPrimitive .exit
  modify fun s => { s with dict := s.dict.reveal d.xt, mode := .run }

def compileControl (d : Draft) (k : Control) (t : Token) : Session σ Unit :=
  match k, d.opened with
  | .if_, opened => do
    let hole ← emitBranch .jumpIfZero
    setOpened d (⟨.if_ hole, t.location⟩ :: opened)
  | .else_, ⟨.if_ hole, location⟩ :: outer => do
    let skip ← emitBranch .jump
    patch hole
    setOpened d (⟨.else_ skip, location⟩ :: outer)
  | .then_, ⟨.if_ hole, _⟩ :: outer => do
    patch hole
    setOpened d outer
  | .then_, ⟨.else_ hole, _⟩ :: outer => do
    patch hole
    setOpened d outer
  | .begin_, opened => do
    let start ← codeEnd
    setOpened d (⟨.begin_ start, t.location⟩ :: opened)
  | .until_, ⟨.begin_ start, _⟩ :: outer => do
    emitWith .jumpIfZero start
    setOpened d outer
  | .again_, ⟨.begin_ start, _⟩ :: outer => do
    emitWith .jump start
    setOpened d outer
  | .while_, ⟨.begin_ start, location⟩ :: outer => do
    let hole ← emitBranch .jumpIfZero
    setOpened d (⟨.while_ start hole, location⟩ :: outer)
  | .repeat_, ⟨.while_ start hole, _⟩ :: outer => do
    emitWith .jump start
    patch hole
    setOpened d outer
  | .do_, opened => do
    emitPrimitive .enterLoop
    let body ← codeEnd
    setOpened d (⟨.do_ body, t.location⟩ :: opened)
  | .loop_, ⟨.do_ body, _⟩ :: outer => do
    emitWith .loop body
    setOpened d outer
  | .plusLoop, ⟨.do_ body, _⟩ :: outer => do
    emitWith .plusLoop body
    setOpened d outer
  | .recurse, _ => emitToken d.xt
  | .exit, _ => emitPrimitive .exit
  | .semicolon, [] => closeDraft d
  | .semicolon, o :: _ => fail o.unterminated
  | _, _ => fail (.unmatchedControl t.text t.location)

def stringPrimitive : StringUse → Primitive
  | .print => .printString
  | .push => .stringLiteral

/-- Compiles one phrase of the definition `d`. -/
def compilePhrase (d : Draft) : Phrase → Session σ Unit
  | .word t => do
    match (← get).dict.sense? t.text with
    | some (.word xt) => emitToken xt
    | some (.literal v) => emitWith .literal v
    | none => fail (.undefinedWord t.text t.location)
  | .control k t => compileControl d k t
  | .define _ t _ => fail (.nestedDefinition t.text t.location)
  | .text _ t none => fail (.missingQuote t.location)
  | .text u _ (some body) => emitString (stringPrimitive u) body
  | .comment _ => pure ()

/-- Begins a definition. Its entry is hidden, so that until it is complete the name still
    means what it meant before. -/
def openDraft (name : String) : Session σ Unit := do
  let mark ← getHere
  onMemory Memory.align
  let entry ← getHere
  modify fun s =>
    let added := s.dict.pushHidden name (.compiled entry)
    { s with
      dict := added.2
      mode := .compile ⟨name, added.1, mark, []⟩ }

end Engine

end Handheld
