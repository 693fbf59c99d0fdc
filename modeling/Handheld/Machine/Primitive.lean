/-
  Handheld.Machine.Primitive — the instructions.

  The first nine are what the compiler lays down around operands, branches, loops and strings;
  the others are the words a program starts with. Each works on the machine alone: none can
  see or change the dictionary.
-/

import Handheld.Machine.Basic

namespace Handheld

inductive Primitive where
  | literal
  | jump
  | jumpIfZero
  | exit
  | enterLoop
  | loop
  | plusLoop
  | stringLiteral
  | printString
  | add
  | sub
  | mul
  | div
  | mod
  | divMod
  | negate
  | abs
  | min
  | max
  | increment
  | decrement
  | double
  | halve
  | equal
  | notEqual
  | less
  | greater
  | lessEqual
  | greaterEqual
  | isZero
  | isNegative
  | isPositive
  | and
  | or
  | xor
  | invert
  | shiftLeft
  | shiftRight
  | dup
  | dupNonzero
  | drop
  | swap
  | over
  | rot
  | rotBack
  | nip
  | tuck
  | pick
  | dup2
  | drop2
  | depth
  | toReturn
  | fromReturn
  | copyReturn
  | outerIndex
  | unloop
  | fetch
  | store
  | fetchByte
  | storeByte
  | addStore
  | here
  | allot
  | comma
  | commaByte
  | cells
  | cellPlus
  | print
  | emit
  | newline
  | space
  | spaces
  | type
  deriving DecidableEq

namespace Primitive

open Machine

variable {σ : Type}

/-- The instructions the compiler lays down, with the names they are listed under. -/
def runtime : List (String × Primitive) :=
  [("(literal)", .literal), ("(jmp)", .jump), ("(jump-zero)", .jumpIfZero), ("(exit)", .exit),
   ("(do)", .enterLoop), ("(loop)", .loop), ("(+loop)", .plusLoop),
   ("(str-literal)", .stringLiteral), ("(write-str)", .printString)]

/-- The words a program starts with. -/
def words : List (String × Primitive) :=
  [("+", .add), ("-", .sub), ("*", .mul), ("/", .div), ("mod", .mod), ("/mod", .divMod),
   ("negate", .negate), ("abs", .abs), ("min", .min), ("max", .max),
   ("1+", .increment), ("1-", .decrement), ("2*", .double), ("2/", .halve),
   ("=", .equal), ("<>", .notEqual), ("<", .less), (">", .greater), ("<=", .lessEqual), (">=", .greaterEqual),
   ("0=", .isZero), ("0<", .isNegative), ("0>", .isPositive), ("not", .isZero),
   ("and", .and), ("or", .or), ("xor", .xor), ("invert", .invert), ("lshift", .shiftLeft),
   ("rshift", .shiftRight),
   ("dup", .dup), ("?dup", .dupNonzero), ("drop", .drop), ("swap", .swap), ("over", .over),
   ("rot", .rot), ("-rot", .rotBack), ("nip", .nip), ("tuck", .tuck), ("pick", .pick),
   ("2dup", .dup2), ("2drop", .drop2), ("depth", .depth),
   (">r", .toReturn), ("r>", .fromReturn), ("r@", .copyReturn), ("i", .copyReturn), ("j", .outerIndex),
   ("unloop", .unloop),
   ("@", .fetch), ("!", .store), ("c@", .fetchByte), ("c!", .storeByte), ("+!", .addStore),
   ("here", .here), ("allot", .allot), (",", .comma), ("c,", .commaByte), ("cells", .cells),
   ("cell+", .cellPlus),
   (".", .print), ("emit", .emit), ("cr", .newline), ("space", .space), ("spaces", .spaces), ("type", .type)]

/-- Replaces the top cell. -/
def unary (f : Cell → Cell) : Act σ Unit := do
  let a ← pop
  push (f a)

/-- Replaces the two top cells; the second argument is the top one. -/
def binary (f : Cell → Cell → Cell) : Act σ Unit := do
  let b ← pop
  let a ← pop
  push (f a b)

/-- The dividend and the divisor, which must not be zero. -/
def dividends : Act σ (Cell × Cell) := do
  let b ← pop
  let a ← pop
  if b = 0 then throw .divideByZero
  return (a, b)

/-- Whether a loop index at `offset` from its limit, moved by `step`, crosses the boundary
    between the limit and the cell below it. -/
def crosses (offset step : Cell) : Bool :=
  let next := offset + step
  ((offset ^^^ next) &&& ~~~(step ^^^ next)) < 0

/-- Moves the index of the innermost loop; unless that ends the loop its body runs again. -/
def advanceLoop (step : Cell) : Act σ Unit := do
  let body ← operand
  let index ← rpop
  let limit ← rpeek
  if crosses (index - limit) step then
    discard rpop
  else
    rpush (index + step)
    jumpTo body

/-- Steps over the string that follows and gives its address and length. -/
def inlineString : Act σ (Nat × Nat) := do
  let n ← count (← operand) .missingOperand
  let a ← skipInline n
  return (a, n)

/-- Prints bytes of the memory. Text is never shorter than its bytes, so more of them than
    there is room for are refused unread. -/
def printBytes (a n : Nat) : Act σ Unit := do
  onMemory (Memory.guardRange a n)
  if (← get).output.room < n then throw (.output .full)
  onOutput (Output.writeBytes ((← get).memory.slice a n))

/-- Writes blanks one by one. -/
def writeSpaces : Nat → Act σ Unit
  | 0 => pure ()
  | n + 1 => do
    write " "
    writeSpaces n

def run : Primitive → Act σ Unit
  | .literal => do push (← operand)
  | .jump => do jumpTo (← operand)
  | .jumpIfZero => do
    let target ← operand
    let v ← pop
    if v = 0 then jumpTo target
  | .exit => leave
  | .enterLoop => do
    let start ← pop
    let limit ← pop
    rpush limit
    rpush start
  | .loop => advanceLoop 1
  | .plusLoop => do advanceLoop (← pop)
  | .stringLiteral => do
    let (a, n) ← inlineString
    push (← cell a)
    push (Int32.ofNat n)
  | .printString => do
    let (a, n) ← inlineString
    printBytes a n
  | .add => binary (· + ·)
  | .sub => binary (· - ·)
  | .mul => binary (· * ·)
  | .div => do
    let (a, b) ← dividends
    push (a / b)
  | .mod => do
    let (a, b) ← dividends
    push (a % b)
  | .divMod => do
    let (a, b) ← dividends
    push (a % b)
    push (a / b)
  | .negate => unary (- ·)
  | .abs => unary (·.abs)
  | .min => binary fun a b => if a ≤ b then a else b
  | .max => binary fun a b => if a ≤ b then b else a
  | .increment => unary (· + 1)
  | .decrement => unary (· - 1)
  | .double => unary (· * 2)
  | .halve => unary (· >>> 1)
  | .equal => binary fun a b => Cell.flag (a = b)
  | .notEqual => binary fun a b => Cell.flag (a ≠ b)
  | .less => binary fun a b => Cell.flag (a < b)
  | .greater => binary fun a b => Cell.flag (b < a)
  | .lessEqual => binary fun a b => Cell.flag (a ≤ b)
  | .greaterEqual => binary fun a b => Cell.flag (b ≤ a)
  | .isZero => unary fun a => Cell.flag (a = 0)
  | .isNegative => unary fun a => Cell.flag (a < 0)
  | .isPositive => unary fun a => Cell.flag (0 < a)
  | .and => binary (· &&& ·)
  | .or => binary (· ||| ·)
  | .xor => binary (· ^^^ ·)
  | .invert => unary (~~~ ·)
  | .shiftLeft => binary Cell.shiftLeft
  | .shiftRight => binary Cell.shiftRight
  | .dup => do push (← peek)
  | .dupNonzero => do
    let v ← peek
    if v ≠ 0 then push v
  | .drop => discard pop
  | .swap => do
    let b ← pop
    let a ← pop
    push b
    push a
  | .over => do push (← peekUnder 1)
  | .rot => do
    let c ← pop
    let b ← pop
    let a ← pop
    push b
    push c
    push a
  | .rotBack => do
    let c ← pop
    let b ← pop
    let a ← pop
    push c
    push a
    push b
  | .nip => do
    let b ← pop
    discard pop
    push b
  | .tuck => do
    let b ← pop
    let a ← pop
    push b
    push a
    push b
  | .pick => do
    let n ← count (← pop) .negativeCount
    push (← peekUnder n)
  | .dup2 => do
    let a ← peekUnder 1
    let b ← peek
    push a
    push b
  | .drop2 => do
    discard pop
    discard pop
  | .depth => do push (← cell (← get).data.depth)
  | .toReturn => do rpush (← pop)
  | .fromReturn => do push (← rpop)
  | .copyReturn => do push (← rpeek)
  | .outerIndex => do push (← rpeekUnder 2)
  | .unloop => do
    discard rpop
    discard rpop
  | .fetch => do
    let a ← address (← pop)
    push (← onMemory (Memory.fetchCell a))
  | .store => do
    let a ← address (← pop)
    let v ← pop
    onMemory (Memory.storeCell a v)
  | .fetchByte => do
    let a ← address (← pop)
    let b ← onMemory (Memory.fetchByte a)
    push (Int32.ofNat b.toNat)
  | .storeByte => do
    let a ← address (← pop)
    let v ← pop
    onMemory (Memory.storeByte a v.lowByte)
  | .addStore => do
    let a ← address (← pop)
    let v ← pop
    let old ← onMemory (Memory.fetchCell a)
    onMemory (Memory.storeCell a (old + v))
  | .here => do push (← cell (← get).memory.here)
  | .allot => do discard (onMemory (Memory.allot (← pop)))
  | .comma => do discard (onMemory (Memory.bumpCell (← pop)))
  | .commaByte => do
    let v ← pop
    discard (onMemory (Memory.bumpBytes [v.lowByte]))
  | .cells => unary (· * 4)
  | .cellPlus => unary (· + 4)
  | .print => do onOutput (Output.print (← pop))
  | .emit => do
    let v ← pop
    onOutput (Output.writeBytes [v.lowByte])
  | .newline => write "\n"
  | .space => write " "
  | .spaces => do writeSpaces (← count (← pop) .negativeCount)
  | .type => do
    let len ← pop
    let a ← address (← pop)
    let n ← count len .negativeCount
    printBytes a n

end Primitive

end Handheld
