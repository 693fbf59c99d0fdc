/-
  Handheld.Settings.Basic — the settings of a console and its engine.

  A key that is not given keeps its default. A key that is not known, a value of another kind
  and a number out of range make the whole settings unreadable.
-/

import Handheld.Console.Settings
import Handheld.Engine.Limits
import Handheld.Settings.Toml

namespace Handheld

structure Settings where
  engine : Limits := {}
  console : ConsoleSettings := {}
  deriving DecidableEq

namespace Settings

def readLimits (v : Value) : Option Limits := do
  let fields ← v.fields?
    ["data_stack_elems", "return_stack_elems", "memory_bytes", "output_buf_elems", "step_budget"]
  let base : Limits := {}
  return {
    dataCells := ← Value.field fields "data_stack_elems" Value.size? base.dataCells
    returnCells := ← Value.field fields "return_stack_elems" Value.size? base.returnCells
    memoryBytes := ← Value.field fields "memory_bytes" Value.size? base.memoryBytes
    outputBytes := ← Value.field fields "output_buf_elems" Value.size? base.outputBytes
    stepBudget := ← Value.field fields "step_budget" Value.sizeOrNull? base.stepBudget }

def readConsole (v : Value) : Option ConsoleSettings := do
  let fields ← v.fields? ["entry_point", "screen_width", "screen_height", "tick_interval_ms"]
  let base : ConsoleSettings := {}
  return {
    entryPoint := ← Value.field fields "entry_point" Value.text? base.entryPoint
    screenWidth := ← Value.field fields "screen_width" Value.cell? base.screenWidth
    screenHeight := ← Value.field fields "screen_height" Value.cell? base.screenHeight
    tickInterval := ← Value.field fields "tick_interval_ms" Value.size? base.tickInterval }

def read (v : Value) : Option Settings := do
  let fields ← v.fields? ["forth", "console"]
  return {
    engine := ← Value.field fields "forth" readLimits {}
    console := ← Value.field fields "console" readConsole {} }

def ofToml? (text : String) : Option Settings := (Toml.parse? text).bind read

end Settings

end Handheld
