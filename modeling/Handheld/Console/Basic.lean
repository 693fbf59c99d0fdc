/-
  Handheld.Console.Basic — a console: an engine with the host's words and a program's entry
  word, run once per frame.

  What a program prints goes to the recorder after every call, whether it succeeds or fails.
  The entry word is looked up when it is needed and kept until more source is read, since new
  source may define it again.
-/

import Handheld.Console.Recorder
import Handheld.Console.Settings
import Handheld.Engine.Interpretation

namespace Handheld

structure Console where
  engine : Engine Recorder
  entryPoint : String
  /-- The address of the entry word, once it has been looked up. -/
  entry : Option Nat
  ticks : Nat

/-- Why a console did not load; the recorder is handed back with all it heard. -/
structure LoadFailure where
  halt : Halt
  host : Recorder

namespace Console

abbrev Op := EStateM Halt Console

variable {α : Type}

def onEngine (act : Session Recorder α) : Op α := fun ⟨engine, entryPoint, entry, ticks⟩ =>
  match act engine with
  | .ok a engine => .ok a ⟨engine, entryPoint, entry, ticks⟩
  | .error e engine => .error e ⟨engine, entryPoint, entry, ticks⟩

def host (c : Console) : Recorder := c.engine.machine.host

def modifyHost (c : Console) (f : Recorder → Recorder) : Console :=
  { c with engine := { c.engine with machine := { c.engine.machine with host := f c.engine.machine.host } } }

/-- Hands what was printed to the host. -/
def flush (c : Console) : Console :=
  let c := c.modifyHost (·.hear c.engine.printed)
  { c with engine := c.engine.clearOutput }

/-- Runs an action and changes the state after it, whether it fails or not. -/
def after (act : Op α) (f : Console → Console) : Op α := fun c =>
  match act c with
  | .ok a c => .ok a (f c)
  | .error e c => .error e (f c)

/-- An engine with the primitives and the host's words. -/
def bare (limits : Limits) (host : Recorder) : Engine Recorder :=
  let engine := Engine.new limits host Primitive.words
  { engine with dict := Recorder.words.foldl (fun d (name, arity, f) =>
      (d.push name (.native arity f)).2) engine.dict }

def preludeLabel : String := "game-builtins"

/-- A console without a program. The prelude runs no compiled code, so it needs no steps. -/
def boot (host : Recorder) (settings : ConsoleSettings) (limits : Limits) : Except LoadFailure Console :=
  match Engine.interpret 0 preludeLabel settings.preludeText (bare limits host) with
  | .ok _ engine => .ok ⟨engine, settings.entryPoint, none, 0⟩
  | .error halt engine =>
    .error ⟨halt, (flush ⟨engine, settings.entryPoint, none, 0⟩).host⟩

/-- Reads more source. -/
def interpret (fuel : Nat) (label text : String) : Op Unit :=
  after (onEngine (Engine.interpret fuel label text)) fun c => { c.flush with entry := none }

/-- Looks the entry word up and keeps its address. -/
def resolve : Op Nat := do
  let c ← get
  match c.engine.dict.entry? c.entryPoint with
  | some a =>
    modify fun c => { c with entry := some a }
    return a
  | none => throw (.fault (.missingEntryPoint c.entryPoint))

/-- Runs one frame. Without an entry word nothing happens at all. -/
def tick (fuel : Nat) : Op Unit := do
  let a ← match (← get).entry with
    | some a => pure a
    | none => resolve
  after (onEngine (Engine.callAddress fuel a)) fun c => { c.flush with ticks := c.ticks + 1 }

/-- A console with a program whose entry word is known. -/
def load (fuel : Nat) (host : Recorder) (label source : String) (settings : ConsoleSettings)
    (limits : Limits) : Except LoadFailure Console :=
  match boot host settings limits with
  | .error failure => .error failure
  | .ok c =>
    match (do interpret fuel label source; discard resolve : Op Unit) c with
    | .ok _ c => .ok c
    | .error halt c => .error ⟨halt, c.host⟩

end Console

/-- The failure as one line, without the recorder. -/
def LoadFailure.inspect (f : LoadFailure) : String :=
  let cause := match f.halt with
    | .fault e => e.inspect
    | .unfinished => "Unfinished"
  "LoadError \x7b error: " ++ cause ++ ", .. \x7d"

end Handheld
