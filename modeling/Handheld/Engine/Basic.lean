/-
  Handheld.Engine.Basic — a Forth engine.

  An engine is a dictionary, a machine, and whether it is interpreting or in the middle of a
  definition. A definition in progress keeps where it began, so that a fault can take it back
  whole, and the control structures that are still open, the innermost first.
-/

import Handheld.Lexicon.Dictionary
import Handheld.Source.Phrase
import Handheld.Engine.Limits

namespace Handheld

/-- Which part of a control structure is being compiled, with the addresses its end needs: a
    hole is a branch still to be pointed at its target. -/
inductive Part where
  | if_ (hole : Nat)
  | else_ (hole : Nat)
  | begin_ (start : Cell)
  | while_ (start : Cell) (hole : Nat)
  | do_ (body : Cell)
  deriving DecidableEq

/-- An open control structure and the place of the word that opened it. -/
structure Open where
  part : Part
  location : Location
  deriving DecidableEq

def Open.name (o : Open) : String :=
  match o.part with
  | .if_ _ | .else_ _ => "if"
  | .begin_ _ | .while_ _ _ => "begin"
  | .do_ _ => "do"

def Open.unterminated (o : Open) : Fault := .unterminatedControl o.name o.location

/-- A definition in progress. Its entry is the last of the dictionary. -/
structure Draft where
  name : String
  xt : Nat
  /-- The first free address when the definition began. -/
  mark : Nat
  opened : List Open
  deriving DecidableEq

/-- The fault of a definition that the text leaves open. -/
def Draft.unclosed (d : Draft) : Fault :=
  match d.opened with
  | [] => .missingSemicolon d.name
  | o :: _ => o.unterminated

inductive Mode where
  | run
  | compile (d : Draft)
  deriving DecidableEq

structure Engine (σ : Type) where
  dict : Dictionary σ
  machine : Machine σ
  mode : Mode
  budget : Option Nat

abbrev Session (σ : Type) := EStateM Halt (Engine σ)

namespace Engine

variable {σ α : Type}

def new (limits : Limits) (host : σ) (words : List (String × Primitive)) : Engine σ where
  dict := .initial words
  machine :=
    { data := .empty .data limits.dataCells
      ret := .empty .ret limits.returnCells
      memory := .empty limits.memoryBytes
      output := .empty limits.outputBytes
      host := host
      ip := none
      base := 0 }
  mode := .run
  budget := limits.stepBudget

def onMachine (act : Act σ α) : Session σ α := fun ⟨dict, machine, mode, budget⟩ =>
  match act machine with
  | .ok a machine => .ok a ⟨dict, machine, mode, budget⟩
  | .error e machine => .error (.fault e) ⟨dict, machine, mode, budget⟩

def onMemory (op : Memory.Op α) : Session σ α := onMachine (Machine.onMemory op)

def fail (f : Fault) : Session σ α := throw (.fault f)

def getHere : Session σ Nat := do return (← get).machine.memory.here

/-- What has been printed since it was last cleared. -/
def printed (s : Engine σ) : String := s.machine.output.text

def clearOutput (s : Engine σ) : Engine σ :=
  { s with machine := { s.machine with output := s.machine.output.clear } }

/-- Adds a word to the dictionary. -/
def define (name : String) (kind : Kind σ) : Session σ Unit :=
  modify fun s => { s with dict := (s.dict.push name kind).2 }

/-- Takes a definition in progress back: its entry and all memory from where it began. -/
def discardDraft (s : Engine σ) : Engine σ :=
  match s.mode with
  | .run => s
  | .compile d =>
    { s with
      dict := s.dict.truncate d.xt
      machine := { s.machine with memory := s.machine.memory.truncate d.mark }
      mode := .run }

/-- The state to go on with after a fault. -/
def recover (s : Engine σ) : Engine σ :=
  let s := s.discardDraft
  { s with machine := s.machine.reset }

/-- Runs a session that recovers when it fails. -/
def recovering (act : Session σ α) : Session σ α := fun s =>
  match act s with
  | .ok a s => .ok a s
  | .error e s => .error e s.recover

end Engine

end Handheld
