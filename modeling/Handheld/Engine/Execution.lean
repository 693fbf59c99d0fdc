/-
  Handheld.Engine.Execution — running words.

  `step` runs one instruction of compiled code. `runFor n` runs at most `n` of them and stops
  early when the code has returned, so more steps never change a run that has ended. A budget
  is just such a bound: a run that is not over after exactly that many steps has exceeded it.
  Without a budget the caller says how many steps it is willing to wait, and a longer run is
  unfinished.
-/

import Handheld.Engine.Basic

namespace Handheld

variable {σ α : Type}

namespace Machine

/-- Lets the host act on its own state and on the output. -/
def onSurface (op : Memory → EStateM Fault (Surface σ) α) : Act σ α :=
  fun ⟨data, ret, memory, output, host, ip, base⟩ =>
  match op memory ⟨host, output⟩ with
  | .ok a ⟨host, output⟩ => .ok a ⟨data, ret, memory, output, host, ip, base⟩
  | .error e ⟨host, output⟩ => .error e ⟨data, ret, memory, output, host, ip, base⟩

/-- Hands a native word its arguments and pushes its result, if it has one. -/
def callNative (arity : Nat) (f : Native σ) : Act σ Unit := do
  let args ← onData (Stack.popMany arity)
  match ← onSurface (f args) with
  | some v => push v
  | none => pure ()

end Machine

/-- Acts on the machine as the word does. -/
def Kind.perform : Kind σ → Act σ Unit
  | .builtin p => p.run
  | .hook act => act
  | .native arity f => Machine.callNative arity f
  | .compiled entry => Machine.call entry
  | .constant v => Machine.push v

namespace Dictionary

/-- An execution token as a cell; one too large for that shows as -1. -/
def tokenCell (xt : Nat) : Cell := (Cell.ofNat? xt).getD (-1)

def perform (d : Dictionary σ) (xt : Nat) : Act σ Unit :=
  match d.get? xt with
  | some e => e.kind.perform
  | none => throw (.badToken (tokenCell xt))

/-- Runs the instruction at the instruction pointer, if code is running. -/
def step (d : Dictionary σ) : Act σ Unit := do
  match (← get).ip with
  | none => pure ()
  | some a =>
    let v ← Machine.onMemory (Memory.fetchCell a)
    Machine.setIp (some (a + Memory.cellSize))
    d.perform (← Machine.count v (.badToken v))

/-- Runs at most `n` instructions. -/
def runFor (d : Dictionary σ) : Nat → Act σ Unit
  | 0 => pure ()
  | n + 1 => do
    if (← get).ip.isSome then
      d.step
      d.runFor n

end Dictionary

namespace Engine

/-- Runs the code at `entry` until it returns. -/
def runCode (fuel entry : Nat) : Session σ Unit := do
  let dict := (← get).dict
  let budget := (← get).budget
  onMachine do
    Machine.start entry
    dict.runFor (budget.getD fuel)
  if (← get).machine.ip.isSome then
    match budget with
    | some limit => fail (.budgetExceeded limit)
    | none => throw .unfinished

/-- Runs a word. Compiled code named outside of a run is run to its end. -/
def execute (fuel xt : Nat) : Session σ Unit := do
  let dict := (← get).dict
  let ip := (← get).machine.ip
  match dict.get? xt, ip with
  | some ⟨_, .compiled entry, _⟩, none => runCode fuel entry
  | _, _ => onMachine (dict.perform xt)

/-- Runs the code at an address, whether or not a word begins there. -/
def callAddress (fuel addr : Nat) : Session σ Unit := recovering (runCode fuel addr)

end Engine

end Handheld
