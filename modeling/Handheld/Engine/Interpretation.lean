/-
  Handheld.Engine.Interpretation — reading a text phrase by phrase.

  Outside of a definition a phrase acts at once; inside one it is compiled. The first fault
  ends the reading: both stacks are cleared and a definition in progress is taken back, while
  everything done before stays done.
-/

import Handheld.Engine.Compilation
import Handheld.Engine.Execution

namespace Handheld.Engine

variable {σ : Type}

/-- The name a defining word needs. -/
def needName (t : Token) : Option String → Session σ String
  | some name => pure name
  | none => fail (.missingName t.text t.location)

def interpretDefiner (t : Token) (name : Option String) : Definer → Session σ Unit
  | .colon => do openDraft (← needName t name)
  | .constant => do
    let v ← onMachine Machine.pop
    define (← needName t name) (.constant v)
  | .variable_ => do
    let name ← needName t name
    let a ← onMemory (Memory.bumpCell 0)
    define name (.constant (← onMachine (Machine.cell a)))
  | .create => do
    let name ← needName t name
    onMemory Memory.align
    define name (.constant (← codeEnd))

def interpretString (u : StringUse) (body : String) : Session σ Unit :=
  match u with
  | .print => onMachine (Machine.write body)
  | .push => do
    let bytes := Text.utf8 body
    let a ← onMemory (Memory.bumpBytes bytes)
    onMachine do
      Machine.push (← Machine.cell a)
      Machine.push (← Machine.cell bytes.length)

def interpretPhrase (fuel : Nat) : Phrase → Session σ Unit
  | .word t => do
    match (← get).dict.sense? t.text with
    | some (.word xt) => execute fuel xt
    | some (.literal v) => onMachine (Machine.push v)
    | none => fail (.undefinedWord t.text t.location)
  | .control _ t => fail (.compileOnly t.text t.location)
  | .define d t name => interpretDefiner t name d
  | .text _ t none => fail (.missingQuote t.location)
  | .text u _ (some body) => interpretString u body
  | .comment _ => pure ()

/-- Takes one phrase, as the mode asks. -/
def feed (fuel : Nat) (p : Phrase) : Session σ Unit := do
  match (← get).mode with
  | .run => interpretPhrase fuel p
  | .compile d => compilePhrase d p

def feedAll (fuel : Nat) : List Phrase → Session σ Unit
  | [] => pure ()
  | p :: ps => do
    feed fuel p
    feedAll fuel ps

/-- The end of the text: no definition may be open. -/
def finish : Session σ Unit := do
  match (← get).mode with
  | .run => pure ()
  | .compile d => fail d.unclosed

/-- Interprets a text. `label` names it in faults. -/
def interpret (fuel : Nat) (label text : String) : Session σ Unit :=
  recovering do
    feedAll fuel (Source.ofText label text).phrases
    finish

/-- Registers a word of the host. -/
def register (name : String) (kind : Kind σ) : Session σ Unit :=
  if Name.isWord name then define name kind else fail (.invalidName name)

end Handheld.Engine
