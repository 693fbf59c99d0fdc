/-
  Handheld.Machine.Stack — a bounded stack of cells.

  The cells stand bottom first. A push past the capacity and a pop of too few cells are
  faults that leave the stack as it was.
-/

import Handheld.Machine.Cell

namespace Handheld

inductive StackKind where
  | data
  | ret
  deriving DecidableEq

inductive StackFault where
  | underflow (kind : StackKind)
  | overflow (kind : StackKind)
  deriving DecidableEq

def StackKind.name : StackKind → String
  | .data => "data stack"
  | .ret => "return stack"

def StackKind.inspect : StackKind → String
  | .data => "Data"
  | .ret => "Return"

def StackFault.message : StackFault → String
  | .underflow kind => kind.name ++ " underflow"
  | .overflow kind => kind.name ++ " overflow"

def StackFault.inspect : StackFault → String
  | .underflow kind => "Underflow(" ++ kind.inspect ++ ")"
  | .overflow kind => "Overflow(" ++ kind.inspect ++ ")"

structure Stack where
  kind : StackKind
  capacity : Nat
  cells : Array Cell

namespace Stack

def empty (kind : StackKind) (capacity : Nat) : Stack := ⟨kind, capacity, #[]⟩

def depth (s : Stack) : Nat := s.cells.size

def top? (s : Stack) : Option Cell := s.cells.back?

/-- The cell that `n` others lie on. -/
def under? (s : Stack) (n : Nat) : Option Cell :=
  if n < s.cells.size then s.cells[s.cells.size - 1 - n]? else none

def clear (s : Stack) : Stack := { s with cells := #[] }

abbrev Op := EStateM StackFault Stack

def push (v : Cell) : Op Unit := fun s =>
  if s.cells.size < s.capacity then .ok () { s with cells := s.cells.push v }
  else .error (.overflow s.kind) s

def pop : Op Cell := fun s =>
  match s.cells.back? with
  | some v => .ok v { s with cells := s.cells.pop }
  | none => .error (.underflow s.kind) s

/-- Takes the top `n` cells, in the order they were pushed. -/
def popMany (n : Nat) : Op (List Cell) := fun s =>
  if n ≤ s.cells.size then
    let rest := s.cells.size - n
    .ok (s.cells.extract rest s.cells.size).toList { s with cells := s.cells.shrink rest }
  else .error (.underflow s.kind) s

def peek : Op Cell := fun s =>
  match s.top? with
  | some v => .ok v s
  | none => .error (.underflow s.kind) s

def peekUnder (n : Nat) : Op Cell := fun s =>
  match s.under? n with
  | some v => .ok v s
  | none => .error (.underflow s.kind) s

/-- Replaces the cell that `n` others lie on. -/
def overwrite (n : Nat) (v : Cell) : Op Unit := fun s =>
  if n < s.cells.size then .ok () { s with cells := s.cells.setIfInBounds (s.cells.size - 1 - n) v }
  else .error (.underflow s.kind) s

theorem push_of_lt {s : Stack} (h : s.depth < s.capacity) (v : Cell) :
    push v s = .ok () { s with cells := s.cells.push v } := if_pos h

theorem push_of_le {s : Stack} (h : s.capacity ≤ s.depth) (v : Cell) :
    push v s = .error (.overflow s.kind) s := if_neg (Nat.not_lt.mpr h)

/-- What was pushed is what is popped. -/
@[simp] theorem pop_push (s : Stack) (v : Cell) : pop { s with cells := s.cells.push v } = .ok v s := by
  simp [pop]

end Stack

end Handheld
