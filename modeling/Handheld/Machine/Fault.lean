/-
  Handheld.Machine.Fault — why interpreting, compiling or running stopped.

  One cause per constructor. `message` is the sentence a user reads; `inspect` shows the
  cause with all its fields on one line.
-/

import Handheld.Machine.Stack
import Handheld.Machine.Memory
import Handheld.Machine.Output
import Handheld.Source.Token

namespace Handheld

inductive Fault where
  | stack (e : StackFault)
  | memory (e : MemoryFault)
  | output (e : OutputFault)
  | undefinedWord (name : String) (location : Location)
  | missingEntryPoint (name : String)
  | missingName (word : String) (location : Location)
  | missingSemicolon (name : String)
  | compileOnly (name : String) (location : Location)
  | nestedDefinition (name : String) (location : Location)
  | unmatchedControl (name : String) (location : Location)
  | unterminatedControl (name : String) (location : Location)
  | missingQuote (location : Location)
  | invalidName (name : String)
  | badToken (xt : Cell)
  | missingOperand
  | negativeCount
  | divideByZero
  | budgetExceeded (limit : Nat)
  deriving DecidableEq

namespace Fault

def message : Fault → String
  | .stack e => e.message
  | .memory e => e.message
  | .output e => e.message
  | .undefinedWord name location => location.message ++ ": undefined word `" ++ name ++ "`"
  | .missingEntryPoint name => name ++ " not defined"
  | .missingName word location => location.message ++ ": `" ++ word ++ "` must be followed by a name"
  | .missingSemicolon name => "definition of `" ++ name ++ "` is missing its closing `;`"
  | .compileOnly name location =>
    location.message ++ ": `" ++ name ++ "` may only be used inside a definition"
  | .nestedDefinition name location =>
    location.message ++ ": `" ++ name ++ "` may not be used inside a definition"
  | .unmatchedControl name location => location.message ++ ": unmatched `" ++ name ++ "`"
  | .unterminatedControl name location => location.message ++ ": `" ++ name ++ "` is never closed"
  | .missingQuote location => location.message ++ ": string literal is missing its closing `\"`"
  | .invalidName name => "invalid word name " ++ Text.quoted name
  | .badToken xt => "bad execution token " ++ Text.showInt xt.toInt
  | .missingOperand => "instruction is missing its inline operand"
  | .negativeCount => "loop count is negative"
  | .divideByZero => "division by zero"
  | .budgetExceeded limit =>
    "execution exceeded the step budget of " ++ Text.showNat limit ++ " instructions"

/-- A cause with a name and a place. -/
def inspectNamed (kind field name : String) (location : Location) : String :=
  kind ++ " \x7b " ++ field ++ ": " ++ Text.quoted name ++ ", location: " ++ location.inspect ++ " \x7d"

def inspect : Fault → String
  | .stack e => "Stack(" ++ e.inspect ++ ")"
  | .memory e => "Memory(" ++ e.inspect ++ ")"
  | .output e => "Output(" ++ e.inspect ++ ")"
  | .undefinedWord name location => inspectNamed "UndefinedWord" "name" name location
  | .missingEntryPoint name => "MissingEntryPoint(" ++ Text.quoted name ++ ")"
  | .missingName word location => inspectNamed "MissingName" "word" word location
  | .missingSemicolon name => "ColonCompileMissingSemicolon \x7b name: " ++ Text.quoted name ++ " \x7d"
  | .compileOnly name location => inspectNamed "InterpretingCompileOnlyWord" "name" name location
  | .nestedDefinition name location => inspectNamed "DefinitionInsideDefinition" "name" name location
  | .unmatchedControl name location => inspectNamed "UnmatchedControl" "name" name location
  | .unterminatedControl name location => inspectNamed "UnterminatedControl" "name" name location
  | .missingQuote location => "MissingStringTerminator \x7b location: " ++ location.inspect ++ " \x7d"
  | .invalidName name => "InvalidWordName(" ++ Text.quoted name ++ ")"
  | .badToken xt => "BadExecutionToken(" ++ Text.showInt xt.toInt ++ ")"
  | .missingOperand => "MissingOperand"
  | .negativeCount => "LoopCountIsNegative"
  | .divideByZero => "DivideByZero"
  | .budgetExceeded limit => "StepBudgetExceeded \x7b limit: " ++ Text.showNat limit ++ " \x7d"

end Fault

/-- How an unfinished computation ended: with a fault, or because the steps it was given were
    not enough. The second never happens under a step budget. -/
inductive Halt where
  | fault (f : Fault)
  | unfinished
  deriving DecidableEq

end Handheld
