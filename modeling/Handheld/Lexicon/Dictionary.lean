/-
  Handheld.Lexicon.Dictionary — the words a program can use.

  Entries are only ever added at the end, so the place of an entry is its execution token. A
  name means its newest entry that is not hidden: an older entry of the same name stays for
  the code that was compiled against it. An entry being compiled is hidden until it is
  complete.
-/

import Handheld.Lexicon.Name
import Handheld.Machine.Primitive

namespace Handheld

/-- What a host's word may change. -/
structure Surface (σ : Type) where
  host : σ
  output : Output

/-- A word of the host: from its arguments, in the order they were pushed, and the memory it
    may read to an optional result, or a fault. -/
abbrev Native (σ : Type) := List Cell → Memory → EStateM Fault (Surface σ) (Option Cell)

namespace Native

variable {σ : Type}

/-- Appends to the output. -/
def write (s : String) : EStateM Fault (Surface σ) Unit := fun ⟨host, output⟩ =>
  match Output.write s output with
  | .ok _ output => .ok () ⟨host, output⟩
  | .error e output => .error (.output e) ⟨host, output⟩

/-- The byte at an address a program passes. -/
def byteAt (m : Memory) (addr : Cell) : EStateM Fault (Surface σ) UInt8 :=
  match Memory.addrOfCell addr with
  | .error e => throw (.memory e)
  | .ok a =>
    match Memory.fetchByte a m with
    | .ok b _ => pure b
    | .error e _ => throw (.memory e)

/-- The bytes a program passes by address and length. A negative length is out of bounds,
    whatever the address. -/
def bytesAt (m : Memory) (addr len : Cell) : EStateM Fault (Surface σ) (List UInt8) :=
  match len.toNat?, Memory.addrOfCell addr with
  | none, _ => throw (.memory (.outOfBounds addr.toInt 0))
  | some _, .error e => throw (.memory e)
  | some n, .ok a =>
    match Memory.fetchBytes a n m with
    | .ok bytes _ => pure bytes
    | .error e _ => throw (.memory e)

end Native

/-- What a word does. -/
inductive Kind (σ : Type) where
  | builtin (p : Primitive)
  /-- An instruction of the host's own, so far as it acts on the machine: the words of the engine, its
      mode and calls back into it are out of its reach here. -/
  | hook (act : Act σ Unit)
  | native (arity : Nat) (f : Native σ)
  | compiled (entry : Nat)
  | constant (v : Cell)

def Kind.inspect {σ : Type} : Kind σ → String
  | .builtin _ | .hook _ => "Builtin"
  | .native arity _ => "Native \x7b arity: " ++ Text.showNat arity ++ " \x7d"
  | .compiled entry => "Compiled \x7b entry: " ++ Text.showNat entry ++ " \x7d"
  | .constant v => "Constant(" ++ Text.showInt v.toInt ++ ")"

structure Entry (σ : Type) where
  name : Name
  kind : Kind σ
  hidden : Bool

structure Dictionary (σ : Type) where
  entries : Array (Entry σ)

namespace Dictionary

variable {σ : Type}

def empty : Dictionary σ := ⟨#[]⟩

def size (d : Dictionary σ) : Nat := d.entries.size

def get? (d : Dictionary σ) (xt : Nat) : Option (Entry σ) := d.entries[xt]?

/-- Adds an entry and gives its token, the place that it takes. -/
def pushEntry (d : Dictionary σ) (name : String) (kind : Kind σ) (hidden : Bool) : Nat × Dictionary σ :=
  (d.size, ⟨d.entries.push ⟨.ofString name, kind, hidden⟩⟩)

def push (d : Dictionary σ) (name : String) (kind : Kind σ) : Nat × Dictionary σ :=
  d.pushEntry name kind false

/-- The entry is not found until it is revealed. -/
def pushHidden (d : Dictionary σ) (name : String) (kind : Kind σ) : Nat × Dictionary σ :=
  d.pushEntry name kind true

def reveal (d : Dictionary σ) (xt : Nat) : Dictionary σ :=
  ⟨d.entries.modify xt fun e => { e with hidden := false }⟩

def truncate (d : Dictionary σ) (size : Nat) : Dictionary σ := ⟨d.entries.shrink size⟩

/-- The newest of the first `n` entries that is visible under the name. -/
def findBelow (d : Dictionary σ) (name : Name) : Nat → Option Nat
  | 0 => none
  | n + 1 =>
    match d.entries[n]? with
    | some e => if !e.hidden && e.name == name then some n else d.findBelow name n
    | none => d.findBelow name n

/-- The newest visible entry of that name. -/
def find? (d : Dictionary σ) (name : String) : Option Nat := d.findBelow (.ofString name) d.size

/-- The visible entries, newest first. -/
def visible (d : Dictionary σ) : List (Entry σ) := d.entries.toList.reverse.filter (!·.hidden)

/-- The dictionary an engine starts with: the compiler's instructions, hidden, and the words
    given. -/
def initial (words : List (String × Primitive)) : Dictionary σ :=
  words.foldl (fun d (name, p) => (d.push name (.builtin p)).2)
    (Primitive.runtime.foldl (fun d (name, p) => (d.pushHidden name (.builtin p)).2) empty)

@[simp] theorem size_push (d : Dictionary σ) (name : String) (kind : Kind σ) :
    (d.push name kind).2.size = d.size + 1 :=
  Array.size_push ..

@[simp] theorem size_pushHidden (d : Dictionary σ) (name : String) (kind : Kind σ) :
    (d.pushHidden name kind).2.size = d.size + 1 :=
  Array.size_push ..

@[simp] theorem size_reveal (d : Dictionary σ) (xt : Nat) : (d.reveal xt).size = d.size :=
  Array.size_modify ..

@[simp] theorem size_truncate (d : Dictionary σ) (n : Nat) : (d.truncate n).size = min n d.size :=
  Array.size_shrink ..

/-- A new entry takes the first free token and leaves the older ones as they were. -/
theorem get?_push (d : Dictionary σ) (name : String) (kind : Kind σ) (xt : Nat) :
    (d.push name kind).2.get? xt =
      if xt = d.size then some ⟨.ofString name, kind, false⟩ else d.get? xt :=
  Array.getElem?_push

theorem get?_pushHidden (d : Dictionary σ) (name : String) (kind : Kind σ) (xt : Nat) :
    (d.pushHidden name kind).2.get? xt =
      if xt = d.size then some ⟨.ofString name, kind, true⟩ else d.get? xt :=
  Array.getElem?_push

theorem get?_reveal (d : Dictionary σ) (xt i : Nat) :
    (d.reveal xt).get? i = if xt = i then (d.get? i).map fun e => { e with hidden := false } else d.get? i :=
  Array.getElem?_modify

theorem get?_truncate (d : Dictionary σ) (n xt : Nat) :
    (d.truncate n).get? xt = if xt < n then d.get? xt else none := by
  unfold truncate get?
  rw [← Array.getElem?_toList, ← Array.getElem?_toList, Array.toList_shrink, List.getElem?_take]

end Dictionary

end Handheld
