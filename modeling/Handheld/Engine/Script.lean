/-
  Handheld.Engine.Script — scripted sessions.

  A script is read line by line, leading blanks dropped. A line that starts with `> ` is
  source that must succeed, with `x ` source that must fail, with `< ` a line of output
  expected from the source before it. A line `( key value )` with the key of a limit sets it;
  every other line is a comment. Output is compared line by line, trailing blanks apart.
-/

import Handheld.Engine.Interpretation

namespace Handheld

namespace Script

inductive NumberFault where
  | invalidDigit
  | tooLarge
  deriving DecidableEq

def NumberFault.message : NumberFault → String
  | .invalidDigit => "invalid digit found in string"
  | .tooLarge => "number too large to fit in target type"

inductive Failure where
  | orphanOutput
  | outputOfFailure (source : String)
  | badValue (value : String) (why : NumberFault)
  | settingsRefused (line : String)
  | settingsLate (line : String)
  | wrongOutput (source : String)
  | succeeded (source output : String)
  | failed (source : String) (f : Fault)
  | unfinished (source : String)
  /-- A stack that no address space could hold. -/
  | capacityOverflow
  deriving DecidableEq

def Failure.message : Failure → String
  | .orphanOutput => "expected output must follow an input line"
  | .outputOfFailure source => "a failing line has no output: " ++ Text.quoted source
  | .badValue value why => "bad value " ++ Text.quoted value ++ ": " ++ why.message
  | .settingsRefused line => "settings are not allowed here: " ++ Text.quoted line
  | .settingsLate line => "settings must come first: " ++ Text.quoted line
  | .wrongOutput source => "assertion `left == right` failed: wrong output for " ++ Text.quoted source
  | .succeeded source output => Text.quoted source ++ " should have failed, printed " ++ Text.quoted output
  | .failed source f => Text.quoted source ++ " failed: " ++ f.message ++ " (" ++ f.inspect ++ ")"
  | .unfinished source => Text.quoted source ++ " did not finish"
  | .capacityOverflow => "capacity overflow"

inductive Expect where
  | anything
  | lines (expected : List String)
  | failure
  deriving DecidableEq

structure Step where
  source : String
  expect : Expect
  deriving DecidableEq

/-- A number of at most 64 bits, after the digits that gave `acc`. -/
def readSizeFrom (acc : Nat) : List Char → Except NumberFault Nat
  | [] => .ok acc
  | c :: cs =>
    match Text.digitValue? c with
    | none => .error .invalidDigit
    | some d => if 10 * acc + d < UInt64.size then readSizeFrom (10 * acc + d) cs else .error .tooLarge

/-- A number of at most 64 bits with an optional plus sign. -/
def readSize : List Char → Except NumberFault Nat
  | [] | ['+'] => .error .invalidDigit
  | '+' :: cs => readSizeFrom 0 cs
  | cs => readSizeFrom 0 cs

/-- Which limit a key sets. -/
def setLimit? (limits : Limits) : String → Option (Nat → Limits)
  | "data_stack_elems" => some fun n => { limits with dataCells := n }
  | "return_stack_elems" => some fun n => { limits with returnCells := n }
  | "memory_bytes" => some fun n => { limits with memoryBytes := n }
  | "output_buf_elems" => some fun n => { limits with outputBytes := n }
  | "step_budget" => some fun n => { limits with stepBudget := some n }
  | _ => none

end Script

/-- The limits asked for and the steps, the last first while they are read. -/
structure Script where
  limits : Limits
  steps : List Script.Step

namespace Script

/-- What follows the two characters `a` and a blank at the start of a line. -/
def afterMark? (a : Char) : List Char → Option (List Char)
  | b :: ' ' :: rest => if a = b then some rest else none
  | _ => none

/-- Adds a line of expected output to the last step. -/
def expectLine (out : String) : List Step → Except Failure (List Step)
  | [] => .error .orphanOutput
  | step :: earlier =>
    match step.expect with
    | .anything => .ok ({ step with expect := .lines [out] } :: earlier)
    | .lines expected => .ok ({ step with expect := .lines (expected ++ [out]) } :: earlier)
    | .failure => .error (.outputOfFailure step.source)

/-- Reads a line between parentheses: a setting or a comment. -/
def readSetting (allowed : Bool) (line body : List Char) (s : Script) : Except Failure Script :=
  match Text.words body with
  | [key, value, [')']] =>
    match setLimit? s.limits (String.ofList key) with
    | none => .ok s
    | some set =>
      match readSize value with
      | .error why => .error (.badValue (String.ofList value) why)
      | .ok n =>
        if !allowed then .error (.settingsRefused (String.ofList line))
        else if !s.steps.isEmpty then .error (.settingsLate (String.ofList line))
        else .ok { s with limits := set n }
  | _ => .ok s

def readLine (allowed : Bool) (s : Script) (line : List Char) : Except Failure Script :=
  let add (source : List Char) (expect : Expect) : Script :=
    { s with steps := ⟨String.ofList source, expect⟩ :: s.steps }
  match afterMark? '>' line, afterMark? 'x' line, afterMark? '<' line, afterMark? '(' line with
  | some source, _, _, _ => .ok (add source .anything)
  | _, some source, _, _ => .ok (add source .failure)
  | _, _, some out, _ => do return { s with steps := ← expectLine (String.ofList out) s.steps }
  | _, _, _, some body => readSetting allowed line body s
  | _, _, _, _ => .ok s

/-- Reads a script. Settings are refused for an engine that already exists. -/
def parse (allowed : Bool) (contents : String) : Except Failure Script := do
  let lines := (Text.lines contents.toList).map Text.trimStart
  let s ← lines.foldlM (readLine allowed) ⟨{}, []⟩
  return { s with steps := s.steps.reverse }

/-- The name of the text in faults. -/
def label : String := "ui-test"

def outputLines (text : String) : List (List Char) := (Text.lines text.toList).map Text.trimEnd

/-- Compares what a step did with what it should have done. -/
def check (step : Step) (result : Except Halt Unit) (output : String) : Except Failure Unit :=
  match step.expect, result with
  | .anything, .ok _ => .ok ()
  | .failure, .error (.fault _) => .ok ()
  | .lines expected, .ok _ =>
    if outputLines output = expected.map (fun l => Text.trimEnd l.toList) then .ok ()
    else .error (.wrongOutput step.source)
  | .failure, .ok _ => .error (.succeeded step.source output)
  | _, .error (.fault f) => .error (.failed step.source f)
  | _, .error .unfinished => .error (.unfinished step.source)

variable {σ : Type}

/-- Runs steps in order up to the first that goes wrong. -/
def runSteps (fuel : Nat) : List Step → Engine σ → Except Failure Unit
  | [], _ => .ok ()
  | step :: steps, e =>
    let (result, e) : Except Halt Unit × Engine σ :=
      match Engine.interpret fuel label step.source e with
      | .ok _ e => (.ok (), e)
      | .error h e => (.error h, e)
    match check step result e.printed with
    | .ok _ => runSteps fuel steps e.clearOutput
    | .error f => .error f

/-- Whether the cells of both stacks, four bytes each, can be set aside: a region ends below
    the middle of the address space. -/
def fits (limits : Limits) : Bool :=
  4 * limits.dataCells < UInt64.size / 2 && 4 * limits.returnCells < UInt64.size / 2

/-- Runs a script, settings included, on an engine of its own. -/
def run (fuel : Nat) (contents : String) : Except Failure Unit := do
  let s ← parse true contents
  if fits s.limits then runSteps fuel s.steps (Engine.new s.limits () Primitive.words)
  else .error .capacityOverflow

/-- Runs a script on an engine that is there already. -/
def runOn (fuel : Nat) (e : Engine σ) (contents : String) : Except Failure Unit := do
  let s ← parse false contents
  runSteps fuel s.steps e

end Script

end Handheld
