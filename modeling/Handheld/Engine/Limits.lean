/-
  Handheld.Engine.Limits — how large an engine is and how long it may run.
-/

namespace Handheld

structure Limits where
  dataCells : Nat := 256
  returnCells : Nat := 256
  memoryBytes : Nat := 65536
  outputBytes : Nat := 4096
  /-- The most instructions one top-level call may run; without it there is no bound. -/
  stepBudget : Option Nat := some 1000000
  deriving DecidableEq

end Handheld
