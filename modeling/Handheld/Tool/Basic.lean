/-
  Handheld.Tool.Basic — running carts without a screen.

  `run` plays a cart for some frames, `check` tells whether it loads, `repl` is a prompt. Each
  is a function to what the tool prints and the code it ends with; a failure prints nothing
  more and ends with 1.
-/

import Handheld.Cart.Basic
import Handheld.Console.Basic
import Handheld.Settings.Basic

namespace Handheld.Tool

structure Transcript where
  stdout : String
  exit : Nat
  deriving DecidableEq

def Transcript.failure (stdout : String) : Transcript := ⟨stdout, 1⟩

structure RunOptions where
  ticks : Nat := 1
  buttons : Cell := 0
  /-- Whether to print what the program draws and plays. -/
  dump : Bool := false

/-- What the program printed since the last time and, if asked for, what it drew in the frame.
    The recorder is left empty. -/
def drain (dump : Bool) (c : Console) : String × Console :=
  let mark := "[" ++ Text.showNat c.ticks ++ "] "
  let drawn := if dump then c.host.commands.toList.map fun d => mark ++ d.inspect ++ "\n" else []
  (c.host.output ++ String.join drawn, c.modifyHost fun h => { h with commands := #[], output := "" })

/-- Plays one frame: what it printed, and how it ended. -/
def frame (fuel : Nat) (dump : Bool) (c : Console) : String × Option Halt × Console :=
  match Console.tick fuel c with
  | .ok _ c => let (text, c) := drain dump c; (text, none, c)
  | .error halt c => let (text, c) := drain dump c; (text, some halt, c)

/-- Plays frames up to the first that fails. -/
def frames (fuel : Nat) (dump : Bool) : Nat → String → Console → Transcript
  | 0, stdout, _ => ⟨stdout, 0⟩
  | n + 1, stdout, c =>
    match frame fuel dump c with
    | (text, none, c) => frames fuel dump n (stdout ++ text) c
    | (text, some _, _) => .failure (stdout ++ text)

/-- The last part of a path. -/
def fileName (path : String) : String := String.ofList ((path.toList.splitOn '/').getLastD [])

/-- Loads the program of a cart; faults name the file it came from. -/
def load (fuel : Nat) (settings : Settings) (path : String) (cart : Cart) (buttons : Cell) :
    Except LoadFailure Console :=
  Console.load fuel (.withButtons buttons) (fileName path) cart.source settings.console settings.engine

def run (fuel : Nat) (settings : Settings) (path text : String) (options : RunOptions) : Transcript :=
  match Cart.parseOrSource text with
  | .error _ => .failure ""
  | .ok cart =>
    match load fuel settings path cart options.buttons with
    | .error failure => .failure failure.host.output
    | .ok c =>
      let (stdout, c) := drain options.dump c
      frames fuel options.dump options.ticks stdout c

/-- The line that says what a cart holds. -/
def summary (path : String) (cart : Cart) (c : Console) : String :=
  path ++ ": ok (" ++ Text.showNat c.engine.dict.visible.length ++ " words, " ++
    Text.showNat c.engine.machine.memory.here ++ " bytes used, " ++
    Text.showNat cart.sprites.opaqueCount ++ " sprite pixels, " ++
    Text.showNat cart.sounds.soundingCount ++ " sound effects)\n"

def check (fuel : Nat) (settings : Settings) (path text : String) : Transcript :=
  match Cart.parseOrSource text with
  | .error _ => .failure ""
  | .ok cart =>
    match load fuel settings path cart 0 with
    | .error failure => .failure failure.host.output
    | .ok c =>
      let (stdout, c) := drain false c
      ⟨stdout ++ summary path cart c, 0⟩

/-- The prompt's answer to a line that went well: the cells on the data stack, if any. -/
def accepted (c : Console) : String :=
  let cells := c.engine.machine.data.cells.toList
  if cells.isEmpty then "ok.\n" else "ok. " ++ Text.showList (cells.map inspectCell) ++ "\n"

/-- The prompt's answer to a line that went wrong. -/
def refused : Halt → String
  | .fault f => "error: " ++ f.message ++ "\n"
  | .unfinished => "error: unfinished\n"

/-- Answers one line of input: `tick` alone plays a frame, anything else is source. -/
def answer (fuel : Nat) (line : String) (c : Console) : String × Console :=
  let act :=
    if Text.trim line.toList = "tick".toList then Console.tick fuel else Console.interpret fuel "repl" line
  let finish (c : Console) (verdict : String) : String × Console :=
    let drawn := c.host.commands.toList.map fun d => "  " ++ d.inspect ++ "\n"
    (c.host.output ++ String.join drawn ++ verdict, c.modifyHost fun h =>
        { h with commands := #[], output := "" })
  match act c with
  | .ok _ c => finish c (accepted c)
  | .error halt c => finish c (refused halt)

def prompt : String := "> "

/-- Answers lines until there are none. -/
def answers (fuel : Nat) : List String → String → Console → Transcript
  | [], stdout, _ => ⟨stdout ++ prompt ++ "\n", 0⟩
  | line :: lines, stdout, c =>
    let (text, c) := answer fuel line c
    answers fuel lines (stdout ++ prompt ++ text) c

def repl (fuel : Nat) (settings : Settings) (input : String) : Transcript :=
  match Console.boot (.withButtons 0) settings.console settings.engine with
  | .error _ => .failure ""
  | .ok c => answers fuel ((Text.wholeLines input.toList).map String.ofList) "" c

/-- The settings of a tool: those of the file, if one is named, which must be readable. -/
def settings? : Option String → Option Settings
  | none => some {}
  | some toml => Settings.ofToml? toml

end Handheld.Tool
