/-
  Handheld.Machine.Size — sizes and places as 64-bit numbers.

  A sum or a product that does not fit in 64 bits is never cut down to size: it stops the program.
-/

namespace Handheld

/-- Why a program stops: what it computed is no 64-bit number. -/
inductive Overflow where
  | add
  | multiply
  deriving DecidableEq

def Overflow.message : Overflow → String
  | .add => "attempt to add with overflow"
  | .multiply => "attempt to multiply with overflow"

namespace Size

def add (a b : Nat) : Except Overflow Nat := if a + b < UInt64.size then .ok (a + b) else .error .add

def mul (a b : Nat) : Except Overflow Nat := if a * b < UInt64.size then .ok (a * b) else .error .multiply

end Size

end Handheld
