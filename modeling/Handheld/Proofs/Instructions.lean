/-
  Handheld.Proofs.Instructions — what holds of every instruction, from what holds of its parts.

  An instruction is put together from a few operations on one part of the machine each. A
  property of acts that those have, and that sequencing keeps, is one that the instructions
  have: `Act.Closed.run` says so once, for all of them. The operations that not every property
  allows are asked for only by the instructions that use them: stores, moves on the return
  stack, and what moves the instruction pointer. Words that keep aloof of the memory and of the
  return stack need even less (`Act.Core.run`), and so do those that print nothing
  (`Act.Quiet.run`).
-/

import Handheld.Engine.Execution
import Handheld.Proofs.Allocation

namespace Handheld

variable {σ α : Type}

/-! ## Parts of the machine -/

namespace Machine

theorem onData_eq (op : Stack.Op α) (m : Machine σ) :
    onData op m = match op m.data with
      | .ok a s => .ok a { m with data := s }
      | .error e s => .error (.stack e) { m with data := s } := rfl

theorem onReturn_eq (op : Stack.Op α) (m : Machine σ) :
    onReturn op m = match op m.ret with
      | .ok a s => .ok a { m with ret := s }
      | .error e s => .error (.stack e) { m with ret := s } := rfl

theorem onMemory_eq (op : Memory.Op α) (m : Machine σ) :
    onMemory op m = match op m.memory with
      | .ok a s => .ok a { m with memory := s }
      | .error e s => .error (.memory e) { m with memory := s } := rfl

theorem onOutput_eq (op : Output.Op α) (m : Machine σ) :
    onOutput op m = match op m.output with
      | .ok a o => .ok a { m with output := o }
      | .error e o => .error (.output e) { m with output := o } := rfl

end Machine

open Machine in
/-- Printing reads the bytes and writes what they say. -/
theorem Primitive.printBytes_eq (a n : Nat) :
    (printBytes a n : Act σ Unit) =
      (onMemory (Memory.fetchBytes a n) >>= fun bytes => onOutput (Output.writeBytes bytes)) := by
  funext m
  by_cases hin : m.memory.inBounds a n = true
  · have hguard : onMemory (Memory.guardRange a n) m = .ok () m := by
      rw [onMemory_eq, Memory.guardRange_eq, if_pos hin]
    have hfetch : onMemory (Memory.fetchBytes a n) m = .ok (m.memory.slice a n) m := by
      rw [onMemory_eq, Memory.fetchBytes_eq, if_pos hin]
    rw [printBytes, bind_of_ok hguard, bind_of_ok (get_apply m), bind_of_ok hfetch]
    by_cases hroom : m.output.room < n
    · have hwrite : Output.writeBytes (m.memory.slice a n) m.output = .error .full m.output :=
        Output.writeBytes_of_room_lt (by simpa [Memory.slice] using hroom)
      rw [if_pos hroom, onOutput_eq, hwrite]
      rfl
    · rw [if_neg hroom]
      rfl
  · have hguard :
        onMemory (Memory.guardRange a n) m = .error (.memory (.outOfBounds (Memory.signedAddr a) n)) m := by
      rw [onMemory_eq, Memory.guardRange_eq, if_neg hin]
    have hfetch :
        onMemory (Memory.fetchBytes a n) m = .error (.memory (.outOfBounds (Memory.signedAddr a) n)) m := by
      rw [onMemory_eq, Memory.fetchBytes_eq, if_neg hin]
    rw [printBytes, bind_of_error hguard, bind_of_error hfetch]

/-! ## Kinds of instructions -/

namespace Primitive

/-- What the compiler lays down: the instructions that read operands or move the instruction
    pointer, or set up a loop. -/
def isControl : Primitive → Bool
  | .literal | .jump | .jumpIfZero | .exit | .enterLoop | .loop | .plusLoop | .stringLiteral |
      .printString => true
  | _ => false

/-- The words that move cells to or from the return stack. -/
def movesReturn : Primitive → Bool
  | .toReturn | .fromReturn | .unloop => true
  | _ => false

/-- The words that write to memory already handed out. -/
def isStore : Primitive → Bool
  | .store | .storeByte | .addStore => true
  | _ => false

/-- What writes to the output. -/
def prints : Primitive → Bool
  | .print | .emit | .newline | .space | .spaces | .type | .printString => true
  | _ => false

/-- The words that neither look at the memory or the return stack nor touch them. -/
def isAloof : Primitive → Bool
  | .toReturn | .fromReturn | .copyReturn | .outerIndex | .unloop => false
  | .fetch | .store | .fetchByte | .storeByte | .addStore | .here | .allot | .comma | .commaByte |
      .type => false
  | p => !p.isControl

theorem isControl_iff_runtime (p : Primitive) : p.isControl = true ↔ p ∈ runtime.map (·.2) := by
  cases p <;> decide

theorem isControl_of_isAloof {p : Primitive} : p.isAloof = true → p.isControl = false := by
  cases p <;> decide

theorem movesReturn_of_isAloof {p : Primitive} : p.isAloof = true → p.movesReturn = false := by
  cases p <;> decide

theorem isControl_of_mem_words {name : String} {p : Primitive} (h : (name, p) ∈ words) :
    p.isControl = false := by
  have hall : ∀ w ∈ words, w.2.isControl = false := by decide
  exact hall _ h

end Primitive

/-- A word that acts on its own: no compiled code, and none of the compiler's instructions. -/
def Kind.isOrdinary : Kind σ → Bool
  | .builtin p => !p.isControl
  | .native _ _ | .constant _ => true
  | .hook _ | .compiled _ => false

/-- A word that a definition may use whatever is on the return stack: it leaves there what it
    finds, or is compiled code that does. -/
def Kind.isTame : Kind σ → Bool
  | .builtin p => !p.isControl && !p.movesReturn
  | .native _ _ | .compiled _ | .constant _ => true
  | .hook _ => false

namespace Act

open Machine

/-- A property that the parts of words on the data stack have and that sequencing keeps. -/
structure Silent (P : ∀ {α : Type}, Act σ α → Prop) : Prop where
  pure {α : Type} (a : α) : P (Pure.pure a)
  bind {α β : Type} {x : Act σ α} {f : α → Act σ β} : P x → (∀ a, P (f a)) → P (x >>= f)
  divideByZero {α : Type} : P (throw .divideByZero : Act σ α)
  push (v : Cell) : P (push v)
  pop : P pop
  peek : P peek
  peekUnder (n : Nat) : P (peekUnder n)
  cell (a : Nat) : P (cell a)
  count (v : Cell) : P (count v .negativeCount)
  -- what such a word reads off the machine besides: one number
  depth {α : Type} {f : Nat → Act σ α} : (∀ n, P (f n)) → P (get >>= fun m => f m.data.depth)

/-- A property that the parts of words on the data stack and the output have. -/
structure Core (P : ∀ {α : Type}, Act σ α → Prop) : Prop extends Silent P where
  write (s : String) : P (write s)
  writeBytes (bytes : List UInt8) : P (onOutput (Output.writeBytes bytes))
  print (v : Cell) : P (onOutput (Output.print v))

/-- A property that the parts of words that print have: what they print may be read from the
    memory. -/
structure Printing (P : ∀ {α : Type}, Act σ α → Prop) : Prop extends Core P where
  address (v : Cell) : P (address v)
  fetchBytes (a n : Nat) : P (onMemory (Memory.fetchBytes a n))

/-- A property that the parts of ordinary words have that print nothing: those that read the
    return stack, and those that read the memory or let it grow, too. -/
structure Quiet (P : ∀ {α : Type}, Act σ α → Prop) : Prop extends Silent P where
  rpeek : P rpeek
  rpeekUnder (n : Nat) : P (rpeekUnder n)
  address (v : Cell) : P (address v)
  fetchCell (a : Nat) : P (onMemory (Memory.fetchCell a))
  fetchByte (a : Nat) : P (onMemory (Memory.fetchByte a))
  allot (n : Cell) : P (onMemory (Memory.allot n))
  bumpCell (v : Cell) : P (onMemory (Memory.bumpCell v))
  bumpBytes (bytes : List UInt8) : P (onMemory (Memory.bumpBytes bytes))
  here {α : Type} {f : Nat → Act σ α} : (∀ n, P (f n)) → P (get >>= fun m => f m.memory.here)

/-- A property that the parts of ordinary words have. -/
structure Closed (P : ∀ {α : Type}, Act σ α → Prop) : Prop extends Printing P, Quiet P

/-- A property of moves on the return stack. -/
structure Returning (P : ∀ {α : Type}, Act σ α → Prop) : Prop where
  rpush (v : Cell) : P (rpush v)
  rpop : P rpop

/-- A property of stores. -/
structure Storing (P : ∀ {α : Type}, Act σ α → Prop) : Prop where
  storeCell (a : Nat) (v : Cell) : P (onMemory (Memory.storeCell a v))
  storeByte (a : Nat) (v : UInt8) : P (onMemory (Memory.storeByte a v))

/-- A property of what moves the instruction pointer. -/
structure Steering (P : ∀ {α : Type}, Act σ α → Prop) : Prop extends Returning P where
  operand : P operand
  jumpTo (target : Cell) : P (jumpTo target)
  skipInline (n : Nat) : P (skipInline n)
  missingOperand (v : Cell) : P (count v .missingOperand)
  leave : P leave

namespace Silent

variable {P : ∀ {α : Type}, Act σ α → Prop} (h : Silent P)

include h

theorem discard {α : Type} {x : Act σ α} (hx : P x) : P (discard x) := by
  rw [discard_eq]
  exact h.bind hx fun _ => h.pure ()

theorem unary (f : Cell → Cell) : P (Primitive.unary f : Act σ Unit) :=
  h.bind h.pop fun _ => h.push _

theorem binary (f : Cell → Cell → Cell) : P (Primitive.binary f : Act σ Unit) :=
  h.bind h.pop fun _ => h.bind h.pop fun _ => h.push _

theorem dividends : P (Primitive.dividends : Act σ (Cell × Cell)) := by
  refine h.bind h.pop fun b => h.bind h.pop fun a => ?_
  split
  · exact h.bind h.divideByZero fun _ => h.pure _
  · exact h.pure _

theorem inlineString (hs : Steering P) : P (Primitive.inlineString : Act σ (Nat × Nat)) :=
  h.bind hs.operand fun _ => h.bind (hs.missingOperand _) fun _ => h.bind (hs.skipInline _) fun _ => h.pure _

/-- The words that keep aloof of the memory, of the return stack and of the output. -/
theorem run {p : Primitive} (hp : p.isAloof = true) (hq : p.prints = false) : P (p.run : Act σ Unit) := by
  cases p
  case literal | jump | jumpIfZero | exit | enterLoop | loop | plusLoop | stringLiteral | printString =>
    cases hp
  case toReturn | fromReturn | copyReturn | outerIndex | unloop => cases hp
  case fetch | store | fetchByte | storeByte | addStore | here | allot | comma | commaByte | type => cases hp
  case print | emit | newline | space | spaces => cases hq
  case negate | abs | increment | decrement | double | halve | isZero | isNegative | isPositive | invert |
      cells | cellPlus =>
    exact h.unary _
  case add | sub | mul | min | max | equal | notEqual | less | greater | lessEqual | greaterEqual | and |
      or | xor | shiftLeft | shiftRight =>
    exact h.binary _
  case div | mod => exact h.bind h.dividends fun _ => h.push _
  case divMod => exact h.bind h.dividends fun _ => h.bind (h.push _) fun _ => h.push _
  case dup => exact h.bind h.peek fun _ => h.push _
  case dupNonzero =>
    refine h.bind h.peek fun v => ?_
    split
    · exact h.push _
    · exact h.pure ()
  case drop => exact h.discard h.pop
  case swap => exact h.bind h.pop fun _ => h.bind h.pop fun _ => h.bind (h.push _) fun _ => h.push _
  case «over» => exact h.bind (h.peekUnder 1) fun _ => h.push _
  case rot | rotBack =>
    exact h.bind h.pop fun _ => h.bind h.pop fun _ => h.bind h.pop fun _ => h.bind (h.push _) fun _ =>
      h.bind (h.push _) fun _ => h.push _
  case nip => exact h.bind h.pop fun _ => h.bind (h.discard h.pop) fun _ => h.push _
  case tuck =>
    exact h.bind h.pop fun _ => h.bind h.pop fun _ => h.bind (h.push _) fun _ =>
        h.bind (h.push _) fun _ => h.push _
  case pick =>
    exact h.bind h.pop fun _ => h.bind (h.count _) fun _ => h.bind (h.peekUnder _) fun _ => h.push _
  case dup2 =>
    exact h.bind (h.peekUnder 1) fun _ => h.bind h.peek fun _ => h.bind (h.push _) fun _ => h.push _
  case drop2 => exact h.bind (h.discard h.pop) fun _ => h.discard h.pop
  case depth =>
    exact h.depth (f := fun n => Machine.cell n >>= Machine.push) fun _ => h.bind (h.cell _) fun _ => h.push _

end Silent

namespace Core

variable {P : ∀ {α : Type}, Act σ α → Prop} (h : Core P)

include h

theorem writeSpaces (n : Nat) : P (Primitive.writeSpaces n : Act σ Unit) := by
  induction n with
  | zero => exact h.pure ()
  | succ n ih => exact h.bind (h.write " ") fun _ => ih

theorem printing {p : Primitive} (hp : p.isAloof = true) (hq : p.prints = true) : P (p.run : Act σ Unit) := by
  cases p <;> cases hq
  case printString | type => cases hp
  case print => exact h.bind h.pop fun _ => h.print _
  case emit => exact h.bind h.pop fun _ => h.writeBytes _
  case newline | space => exact h.write _
  case spaces => exact h.bind h.pop fun _ => h.bind (h.count _) fun _ => h.writeSpaces _

/-- The words that keep aloof of the memory and of the return stack. -/
theorem run {p : Primitive} (hp : p.isAloof = true) : P (p.run : Act σ Unit) := by
  by_cases hq : p.prints = true
  · exact h.printing hp hq
  · exact h.toSilent.run hp (Bool.eq_false_iff.mpr hq)

end Core

namespace Quiet

variable {P : ∀ {α : Type}, Act σ α → Prop} (h : Quiet P)

include h

theorem advanceLoop (hs : Steering P) (step : Cell) : P (Primitive.advanceLoop step : Act σ Unit) := by
  refine h.bind hs.operand fun body => h.bind hs.rpop fun index => h.bind h.rpeek fun limit => ?_
  split
  · exact h.discard hs.rpop
  · exact h.bind (hs.rpush _) fun _ => hs.jumpTo _

/-- What the compiler lays down has a property that its parts have. -/
theorem control (hs : Steering P) {p : Primitive} (hp : p.isControl = true) (hq : p.prints = false) :
    P (p.run : Act σ Unit) := by
  cases p <;> cases hp
  case printString => cases hq
  case literal => exact h.bind hs.operand fun _ => h.push _
  case jump => exact h.bind hs.operand fun _ => hs.jumpTo _
  case jumpIfZero =>
    refine h.bind hs.operand fun target => h.bind h.pop fun v => ?_
    split
    · exact hs.jumpTo _
    · exact h.pure ()
  case exit => exact hs.leave
  case enterLoop => exact h.bind h.pop fun _ => h.bind h.pop fun _ => h.bind (hs.rpush _) fun _ => hs.rpush _
  case loop => exact h.advanceLoop hs 1
  case plusLoop => exact h.bind h.pop fun _ => h.advanceLoop hs _
  case stringLiteral =>
    exact h.bind (h.toSilent.inlineString hs) fun _ => h.bind (h.cell _) fun _ =>
        h.bind (h.push _) fun _ => h.push _

theorem returning (hr : Returning P) {p : Primitive} (hp : p.movesReturn = true) :
    P (p.run : Act σ Unit) := by
  cases p <;> cases hp
  case toReturn => exact h.bind h.pop fun _ => hr.rpush _
  case fromReturn => exact h.bind hr.rpop fun _ => h.push _
  case unloop => exact h.bind (h.discard hr.rpop) fun _ => h.discard hr.rpop

theorem storing (hs : Storing P) {p : Primitive} (hp : p.isStore = true) : P (p.run : Act σ Unit) := by
  cases p <;> cases hp
  case store =>
    exact h.bind h.pop fun _ => h.bind (h.address _) fun _ => h.bind h.pop fun _ => hs.storeCell _ _
  case storeByte =>
    exact h.bind h.pop fun _ => h.bind (h.address _) fun _ => h.bind h.pop fun _ => hs.storeByte _ _
  case addStore =>
    exact h.bind h.pop fun _ => h.bind (h.address _) fun _ => h.bind h.pop fun _ =>
        h.bind (h.fetchCell _) fun _ =>
      hs.storeCell _ _

/-- All other words: what they are made of is allowed to every such property. -/
theorem plain {p : Primitive} (hc : p.isControl = false) (hr : p.movesReturn = false) (hs : p.isStore = false)
    (hq : p.prints = false) : P (p.run : Act σ Unit) := by
  by_cases ha : p.isAloof = true
  · exact h.toSilent.run ha hq
  cases p <;> try exact absurd rfl ha
  case literal | jump | jumpIfZero | exit | enterLoop | loop | plusLoop | stringLiteral | printString =>
    cases hc
  case toReturn | fromReturn | unloop => cases hr
  case store | storeByte | addStore => cases hs
  case type => cases hq
  case copyReturn => exact h.bind h.rpeek fun _ => h.push _
  case outerIndex => exact h.bind (h.rpeekUnder 2) fun _ => h.push _
  case fetch =>
    exact h.bind h.pop fun _ => h.bind (h.address _) fun _ => h.bind (h.fetchCell _) fun _ => h.push _
  case fetchByte =>
    exact h.bind h.pop fun _ => h.bind (h.address _) fun _ => h.bind (h.fetchByte _) fun _ => h.push _
  case here =>
    exact h.here (f := fun n => Machine.cell n >>= Machine.push) fun _ => h.bind (h.cell _) fun _ => h.push _
  case allot => exact h.bind h.pop fun _ => h.discard (h.allot _)
  case comma => exact h.bind h.pop fun _ => h.discard (h.bumpCell _)
  case commaByte => exact h.bind h.pop fun _ => h.discard (h.bumpBytes _)

/-- Every instruction that prints nothing has a property that allows the operations it uses. -/
theorem run (p : Primitive) (hc : p.isControl = true → Steering P) (hr : p.movesReturn = true → Returning P)
    (hs : p.isStore = true → Storing P) (hq : p.prints = false) : P (p.run : Act σ Unit) := by
  by_cases c : p.isControl = true
  · exact h.control (hc c) c hq
  by_cases r : p.movesReturn = true
  · exact h.returning (hr r) r
  by_cases s : p.isStore = true
  · exact h.storing (hs s) s
  · exact h.plain (Bool.eq_false_iff.mpr c) (Bool.eq_false_iff.mpr r) (Bool.eq_false_iff.mpr s) hq

end Quiet

namespace Printing

variable {P : ∀ {α : Type}, Act σ α → Prop} (h : Printing P)

include h

theorem printBytes (a n : Nat) : P (Primitive.printBytes a n : Act σ Unit) := by
  rw [Primitive.printBytes_eq]
  exact h.bind (h.fetchBytes a n) fun _ => h.writeBytes _

/-- The instructions that print. -/
theorem run {p : Primitive} (hc : p.isControl = true → Steering P) (hq : p.prints = true) :
    P (p.run : Act σ Unit) := by
  cases p <;> cases hq
  case print | emit | newline | space | spaces => exact h.toCore.run rfl
  case printString => exact h.bind (h.toSilent.inlineString (hc rfl)) fun _ => h.printBytes _ _
  case type =>
    exact h.bind h.pop fun _ => h.bind h.pop fun _ => h.bind (h.address _) fun _ =>
        h.bind (h.count _) fun _ =>
      h.printBytes _ _

end Printing

namespace Closed

variable {P : ∀ {α : Type}, Act σ α → Prop} (h : Closed P)

include h

/-- The words that neither store nor make a move on the return stack. -/
theorem plain {p : Primitive} (hc : p.isControl = false) (hr : p.movesReturn = false)
    (hs : p.isStore = false) : P (p.run : Act σ Unit) := by
  by_cases hq : p.prints = true
  · exact h.toPrinting.run (fun hctl => by rw [hc] at hctl; cases hctl) hq
  · exact h.toQuiet.plain hc hr hs (Bool.eq_false_iff.mpr hq)

/-- Every instruction has a closed property that allows the operations it uses. -/
theorem run (p : Primitive) (hc : p.isControl = true → Steering P) (hr : p.movesReturn = true → Returning P)
    (hs : p.isStore = true → Storing P) : P (p.run : Act σ Unit) := by
  by_cases hq : p.prints = true
  · exact h.toPrinting.run hc hq
  · exact h.toQuiet.run p hc hr hs (Bool.eq_false_iff.mpr hq)

end Closed

end Act

end Handheld
