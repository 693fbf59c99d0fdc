/-
  Handheld.Main — the command line.

    run CART [--ticks N] [--buttons MASK] [--dump] [--realtime]
    check CART
    repl

  Each takes `--config FILE`. What the commands do is `Handheld.Tool`; here are only files,
  standard input and output, and the clock.
-/

import Handheld.Tool.Basic

namespace Handheld.Main

structure Options where
  words : List String := []
  config : Option String := none
  run : Tool.RunOptions := {}
  realtime : Bool := false

def readOptions (o : Options) : List String → Option Options
  | [] => some o
  | "--config" :: file :: rest => readOptions { o with config := some file } rest
  | "--ticks" :: n :: rest => do
    let ticks ← Text.readNat? n.toList
    readOptions { o with run := { o.run with ticks := ticks } } rest
  | "--buttons" :: n :: rest => do
    let buttons ← (Text.readInt? n.toList).bind Cell.ofInt?
    readOptions { o with run := { o.run with buttons := buttons } } rest
  | "--dump" :: rest => readOptions { o with run := { o.run with dump := true } } rest
  | "--realtime" :: rest => readOptions { o with realtime := true } rest
  | word :: rest => readOptions { o with words := o.words ++ [word] } rest

/-- The steps an engine without a budget may take. -/
def patience : Nat := 1000000000000000

def readText? (path : String) : IO (Option String) := do
  try
    return some (← IO.FS.readFile path)
  catch _ =>
    return none

def report (message : String) : IO UInt32 := do
  IO.eprintln message
  return 1

def explain : Halt → String
  | .fault f => f.message
  | .unfinished => "unfinished"

def finish (t : Tool.Transcript) : IO UInt32 := do
  IO.print t.stdout
  return UInt32.ofNat t.exit

/-- Plays frames one by one, printing each and waiting for the clock. -/
def playFrames (interval : Nat) (options : Tool.RunOptions) : Nat → Console → IO UInt32
  | 0, _ => return 0
  | n + 1, c => do
    let started ← IO.monoMsNow
    let (text, halt, c) := Tool.frame patience options.dump c
    IO.print text
    (← IO.getStdout).flush
    match halt with
    | some h => report ("game halted on frame " ++ Text.showNat c.ticks ++ ": " ++ explain h)
    | none =>
      let spent := (← IO.monoMsNow) - started
      if spent < interval then IO.sleep (UInt32.ofNat (interval - spent))
      playFrames interval options n c

def runCart (settings : Settings) (options : Options) (path text : String) : IO UInt32 := do
  if !options.realtime then
    finish (Tool.run patience settings path text options.run)
  else
    match Cart.parseOrSource text with
    | .error e => report e.message
    | .ok cart =>
      match Tool.load patience settings path cart options.run.buttons with
      | .error failure =>
        IO.print failure.host.output
        report (explain failure.halt)
      | .ok c =>
        let (text, c) := Tool.drain options.run.dump c
        IO.print text
        playFrames settings.console.tickInterval options.run options.run.ticks c

/-- Reads and answers lines until the input ends. -/
partial def talk (c : Console) : IO UInt32 := do
  let stdout ← IO.getStdout
  stdout.putStr Tool.prompt
  stdout.flush
  let line ← (← IO.getStdin).getLine
  if line.isEmpty then
    stdout.putStrLn ""
    return 0
  else
    let (text, c) := Tool.answer patience line c
    stdout.putStr text
    talk c

def startTalk (settings : Settings) : IO UInt32 :=
  match Console.boot (.withButtons 0) settings.console settings.engine with
  | .error failure => report (explain failure.halt)
  | .ok c => talk c

def perform (settings : Settings) (options : Options) : IO UInt32 := do
  match options.words with
  | ["run", path] =>
    match ← readText? path with
    | some text => runCart settings options path text
    | none => report ("failed to read " ++ path)
  | ["check", path] =>
    match ← readText? path with
    | some text => finish (Tool.check patience settings path text)
    | none => report ("failed to read " ++ path)
  | ["repl"] => startTalk settings
  | _ => report "usage: run CART | check CART | repl"

def start (args : List String) : IO UInt32 := do
  match readOptions {} args with
  | none => report "a number was expected"
  | some options =>
    match options.config with
    | none => perform {} options
    | some path =>
      match (← readText? path).bind Settings.ofToml? with
      | some settings => perform settings options
      | none => report ("failed to read config " ++ path)

end Handheld.Main

def main (args : List String) : IO UInt32 := Handheld.Main.start args
