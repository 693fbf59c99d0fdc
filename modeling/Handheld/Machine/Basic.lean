/-
  Handheld.Machine.Basic — what an instruction can touch.

  The two stacks, the memory, the output, the host's own state, and where the machine is: the
  address of the next instruction while compiled code runs, and the depth of the return stack
  at which that run ends. Instructions are built from the small operations below, each of
  which works on one of these parts and leaves the others as they are; a fault keeps what was
  done before it.
-/

import Handheld.Machine.Fault

namespace Handheld

structure Machine (σ : Type) where
  data : Stack
  ret : Stack
  memory : Memory
  output : Output
  host : σ
  /-- The next instruction, while compiled code runs. -/
  ip : Option Nat
  /-- The return depth at which the run that is going on ends. -/
  base : Nat

abbrev Act (σ : Type) := EStateM Fault (Machine σ)

namespace Machine

variable {σ α : Type}

def onData (op : Stack.Op α) : Act σ α := fun ⟨data, ret, memory, output, host, ip, base⟩ =>
  match op data with
  | .ok a data => .ok a ⟨data, ret, memory, output, host, ip, base⟩
  | .error e data => .error (.stack e) ⟨data, ret, memory, output, host, ip, base⟩

def onReturn (op : Stack.Op α) : Act σ α := fun ⟨data, ret, memory, output, host, ip, base⟩ =>
  match op ret with
  | .ok a ret => .ok a ⟨data, ret, memory, output, host, ip, base⟩
  | .error e ret => .error (.stack e) ⟨data, ret, memory, output, host, ip, base⟩

def onMemory (op : Memory.Op α) : Act σ α := fun ⟨data, ret, memory, output, host, ip, base⟩ =>
  match op memory with
  | .ok a memory => .ok a ⟨data, ret, memory, output, host, ip, base⟩
  | .error e memory => .error (.memory e) ⟨data, ret, memory, output, host, ip, base⟩

def onOutput (op : Output.Op α) : Act σ α := fun ⟨data, ret, memory, output, host, ip, base⟩ =>
  match op output with
  | .ok a output => .ok a ⟨data, ret, memory, output, host, ip, base⟩
  | .error e output => .error (.output e) ⟨data, ret, memory, output, host, ip, base⟩

def push (v : Cell) : Act σ Unit := onData (Stack.push v)

def pop : Act σ Cell := onData Stack.pop

def peek : Act σ Cell := onData Stack.peek

def peekUnder (n : Nat) : Act σ Cell := onData (Stack.peekUnder n)

def rpush (v : Cell) : Act σ Unit := onReturn (Stack.push v)

def rpop : Act σ Cell := onReturn Stack.pop

def rpeek : Act σ Cell := onReturn Stack.peek

def rpeekUnder (n : Nat) : Act σ Cell := onReturn (Stack.peekUnder n)

def write (s : String) : Act σ Unit := onOutput (Output.write s)

/-- A cell as an address; a negative one is out of bounds. -/
def address (v : Cell) : Act σ Nat :=
  match Memory.addrOfCell v with
  | .ok a => pure a
  | .error e => throw (.memory e)

/-- An address as a cell. -/
def cell (a : Nat) : Act σ Cell :=
  match Memory.cellOfAddr a with
  | .ok v => pure v
  | .error e => throw (.memory e)

/-- A cell as a count; a negative one is the fault given. -/
def count (v : Cell) (f : Fault) : Act σ Nat :=
  match v.toNat? with
  | some n => pure n
  | none => throw f

def setIp (ip : Option Nat) : Act σ Unit := modify fun m => { m with ip := ip }

/-- Where the next instruction or operand stands. -/
def getIp : Act σ Nat := do
  match (← get).ip with
  | some a => pure a
  | none => throw .missingOperand

/-- Reads the operand that follows the current instruction. -/
def operand : Act σ Cell := do
  let a ← getIp
  let v ← onMemory (Memory.fetchCell a)
  setIp (some (a + Memory.cellSize))
  return v

def jumpTo (target : Cell) : Act σ Unit := do
  let a ← address target
  setIp (some a)

/-- Steps over `len` bytes of data among the instructions and gives their address. -/
def skipInline (len : Nat) : Act σ Nat := do
  let a ← getIp
  setIp (some (Memory.aligned (a + len)))
  return a

/-- Begins a run of its own at `entry`. -/
def start (entry : Nat) : Act σ Unit :=
  modify fun m => { m with base := m.ret.depth, ip := some entry }

/-- Calls compiled code: inside a run the place to go on is kept on the return stack, outside
    of one a run begins. -/
def call (entry : Nat) : Act σ Unit := do
  match (← get).ip with
  | some resume =>
    let v ← cell resume
    rpush v
    setIp (some entry)
  | none => start entry

/-- Returns from compiled code: at the depth the run began with it ends, above it the code
    that called goes on. -/
def leave : Act σ Unit := do
  let m ← get
  if m.ret.depth ≤ m.base then setIp none
  else
    let resume ← rpop
    jumpTo resume

/-- Forgets both stacks and the run that was going on. -/
def reset (m : Machine σ) : Machine σ :=
  { m with data := m.data.clear, ret := m.ret.clear, ip := none }

end Machine

end Handheld
