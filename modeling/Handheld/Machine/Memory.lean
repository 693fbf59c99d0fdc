/-
  Handheld.Machine.Memory — byte memory handed out from the bottom up.

  `here` is the first free address; allocation moves it up and zeroes what it passes.
  Addresses are unsigned 64-bit numbers: a range is in bounds when its end, computed without
  wrapping, does not pass the capacity, and a fault shows an address as a signed number. No
  capacity passes the largest cell, so every address in bounds is a cell.
-/

import Handheld.Machine.ByteStore
import Handheld.Machine.Cell
import Handheld.Text.Decimal

namespace Handheld

inductive MemoryFault where
  | outOfBounds (addr : Int) (len : Nat)
  | exhausted (requested available : Nat)
  | negativeAllot (n : Cell)
  deriving DecidableEq

def MemoryFault.message : MemoryFault → String
  | .outOfBounds addr len =>
    "memory access of " ++ Text.showNat len ++ " byte(s) at address " ++ Text.showInt addr ++
        " is out of bounds"
  | .exhausted requested available =>
    "out of memory: requested " ++ Text.showNat requested ++ " byte(s), " ++ Text.showNat available ++
        " available"
  | .negativeAllot n => "cannot allot " ++ Text.showInt n.toInt ++ " bytes"

def MemoryFault.inspect : MemoryFault → String
  | .outOfBounds addr len =>
    "OutOfBounds \x7b addr: " ++ Text.showInt addr ++ ", len: " ++ Text.showNat len ++ " \x7d"
  | .exhausted requested available =>
    "Exhausted \x7b requested: " ++ Text.showNat requested ++ ", available: " ++
        Text.showNat available ++ " \x7d"
  | .negativeAllot n => "NegativeAllot(" ++ Text.showInt n.toInt ++ ")"

structure Memory where
  capacity : Nat
  bytes : ByteStore
  here : Nat

namespace Memory

/-- The number of bytes of a cell. -/
def cellSize : Nat := 4

def empty (capacity : Nat) : Memory := ⟨min capacity Cell.maxNat, .empty, 0⟩

def available (m : Memory) : Nat := m.capacity - m.here

/-- A 64-bit address read as a signed number. -/
def signedAddr (a : Nat) : Int := Int.bmod a UInt64.size

/-- The next multiple of the cell size, among 64-bit addresses. -/
def aligned (a : Nat) : Nat := (a + 3) / 4 * 4 % UInt64.size

def inBounds (m : Memory) (a len : Nat) : Bool := a + len ≤ m.capacity

def byteAt (m : Memory) (a : Nat) : UInt8 := m.bytes.get a

def setByte (m : Memory) (a : Nat) (v : UInt8) : Memory := { m with bytes := m.bytes.set a v }

def setBytes (m : Memory) (a : Nat) : List UInt8 → Memory
  | [] => m
  | v :: vs => (m.setByte a v).setBytes (a + 1) vs

/-- Zeroes a range. -/
def zero (m : Memory) (a len : Nat) : Memory := { m with bytes := m.bytes.zero a len }

def slice (m : Memory) (a len : Nat) : List UInt8 := (List.range' a len).map m.byteAt

def cellAt (m : Memory) (a : Nat) : Cell :=
  Cell.ofBytes (m.byteAt a) (m.byteAt (a + 1)) (m.byteAt (a + 2)) (m.byteAt (a + 3))

/-- Gives back what was allocated past `mark`. -/
def truncate (m : Memory) (mark : Nat) : Memory := { m with here := min mark m.here }

abbrev Op := EStateM MemoryFault Memory

/-- Fails, at the address given, unless the range is in bounds. -/
def guardRange (a len : Nat) : Op Unit := fun m =>
  if m.inBounds a len then .ok () m else .error (.outOfBounds (signedAddr a) len) m

def fetchByte (a : Nat) : Op UInt8 := do
  guardRange a 1
  return (← get).byteAt a

def storeByte (a : Nat) (v : UInt8) : Op Unit := do
  guardRange a 1
  modify (·.setByte a v)

def fetchCell (a : Nat) : Op Cell := do
  guardRange a cellSize
  return (← get).cellAt a

def storeCell (a : Nat) (v : Cell) : Op Unit := do
  guardRange a cellSize
  modify (·.setBytes a v.toBytes)

def fetchBytes (a len : Nat) : Op (List UInt8) := do
  guardRange a len
  return (← get).slice a len

/-- Takes `len` zeroed bytes from the free end. -/
def bump (len : Nat) : Op Nat := fun m =>
  if len ≤ m.available then
    let start := m.here
    .ok start { m.zero start len with here := start + len }
  else .error (.exhausted len m.available) m

def align : Op Unit := do
  let here := (← get).here
  discard <| bump (aligned here - here)

/-- Appends a cell at the next cell boundary. If there is no room for it the boundary may
    still have been reached. -/
def bumpCell (v : Cell) : Op Nat := do
  align
  let a ← bump cellSize
  storeCell a v
  return a

def bumpBytes (data : List UInt8) : Op Nat := do
  let a ← bump data.length
  modify (·.setBytes a data)
  return a

def allot (n : Cell) : Op Nat :=
  match n.toNat? with
  | some len => bump len
  | none => throw (.negativeAllot n)

/-- A cell as an address. -/
def addrOfCell (v : Cell) : Except MemoryFault Nat :=
  match v.toNat? with
  | some a => .ok a
  | none => .error (.outOfBounds v.toInt 0)

/-- An address as a cell. -/
def cellOfAddr (a : Nat) : Except MemoryFault Cell :=
  match Cell.ofNat? a with
  | some v => .ok v
  | none => .error (.outOfBounds (signedAddr a) 0)

/-! ## Bytes after a write -/

@[simp] theorem here_setByte (m : Memory) (a : Nat) (v : UInt8) : (m.setByte a v).here = m.here := rfl

@[simp] theorem capacity_setByte (m : Memory) (a : Nat) (v : UInt8) :
    (m.setByte a v).capacity = m.capacity := rfl

@[simp] theorem byteAt_setByte (m : Memory) (a b : Nat) (v : UInt8) :
    (m.setByte a v).byteAt b = if a = b then v else m.byteAt b := m.bytes.get_set a b v

@[simp] theorem here_setBytes (vs : List UInt8) (m : Memory) (a : Nat) : (m.setBytes a vs).here = m.here := by
  induction vs generalizing m a with
  | nil => rfl
  | cons v vs ih => rw [setBytes, ih, here_setByte]

@[simp] theorem capacity_setBytes (vs : List UInt8) (m : Memory) (a : Nat) :
    (m.setBytes a vs).capacity = m.capacity := by
  induction vs generalizing m a with
  | nil => rfl
  | cons v vs ih => rw [setBytes, ih, capacity_setByte]

theorem byteAt_setBytes (vs : List UInt8) (m : Memory) (a b : Nat) :
    (m.setBytes a vs).byteAt b = if a ≤ b then vs.getD (b - a) (m.byteAt b) else m.byteAt b := by
  induction vs generalizing m a with
  | nil => simp [setBytes]
  | cons v vs ih =>
    rw [setBytes, ih, byteAt_setByte]
    rcases Nat.lt_trichotomy a b with h | rfl | h
    · have : b - a = (b - (a + 1)) + 1 := by omega
      rw [if_pos (by omega), if_neg (by omega), if_pos (by omega), this, List.getD_cons_succ]
    · rw [if_neg (by omega), if_pos rfl, if_pos (Nat.le_refl a), Nat.sub_self, List.getD_cons_zero]
    · rw [if_neg (by omega), if_neg (by omega), if_neg (by omega)]

@[simp] theorem byteAt_zero (m : Memory) (a len b : Nat) :
    (m.zero a len).byteAt b = if a ≤ b ∧ b < a + len then 0 else m.byteAt b := m.bytes.get_zero a len b

@[simp] theorem length_slice (m : Memory) (a len : Nat) : (m.slice a len).length = len := by simp [slice]

end Memory

end Handheld
