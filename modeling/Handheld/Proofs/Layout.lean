/-
  Handheld.Proofs.Layout — the bytes a structure becomes.

  An instruction is a token, perhaps with an operand or a string after it, and fills whole
  cells. The code of a body at an address follows its structure, with the targets of branches
  worked out from the sizes of the parts; no branch depends on how the code came to be laid
  down. The code of a definition still open is laid out the same way, but that a branch whose
  end is not known yet has nothing for its target.
-/

import Handheld.Proofs.Structure
import Handheld.Proofs.Allocation

namespace Handheld

/-! ## Instructions -/

inductive Instr where
  | word (xt : Nat)
  | plain (p : Primitive)
  | literal (v : Cell)
  /-- A branch, or the end of a loop, with the address it goes to. -/
  | branch (p : Primitive) (target : Nat)
  | string (use : StringUse) (text : String)
  deriving DecidableEq

/-- A number of bytes, rounded up to whole cells. -/
def wholeCells (n : Nat) : Nat := (n + 3) / 4 * 4

namespace Instr

def size : Instr → Nat
  | .word _ | .plain _ => 4
  | .literal _ | .branch _ _ => 8
  | .string _ text => 8 + wholeCells (Text.utf8 text).length

def cellBytes (n : Nat) : List UInt8 := Cell.toBytes (Int32.ofNat n)

def bytes : Instr → List UInt8
  | .word xt => cellBytes xt
  | .plain p => cellBytes p.token
  | .literal v => cellBytes Primitive.literal.token ++ v.toBytes
  | .branch p target => cellBytes p.token ++ cellBytes target
  | .string u text =>
    let data := Text.utf8 text
    cellBytes (Engine.stringPrimitive u).token ++ (cellBytes data.length ++
      (data ++ List.replicate (wholeCells data.length - data.length) 0))

@[simp] theorem length_cellBytes (n : Nat) : (cellBytes n).length = 4 := rfl

@[simp] theorem length_bytes (i : Instr) : i.bytes.length = i.size := by
  cases i with
  | word xt => rfl
  | plain p => rfl
  | literal v => rfl
  | branch p target => rfl
  | string u text =>
    simp only [bytes, size, List.length_append, length_cellBytes, List.length_replicate, wholeCells]
    omega

@[simp] theorem size_word (xt : Nat) : (word xt).size = 4 := rfl

@[simp] theorem size_plain (p : Primitive) : (plain p).size = 4 := rfl

@[simp] theorem size_literal (v : Cell) : (literal v).size = 8 := rfl

@[simp] theorem size_branch (p : Primitive) (target : Nat) : (branch p target).size = 8 := rfl

theorem bytes_branch (p : Primitive) (target : Nat) :
    (branch p target).bytes = cellBytes p.token ++ cellBytes target := rfl

theorem dvd_size (i : Instr) : 4 ∣ i.size := by
  cases i with
  | word xt => exact ⟨1, rfl⟩
  | plain p => exact ⟨1, rfl⟩
  | literal v => exact ⟨2, rfl⟩
  | branch p target => exact ⟨2, rfl⟩
  | string u text => simp only [size, wholeCells]; omega

theorem size_pos (i : Instr) : 4 ≤ i.size := by
  cases i <;> simp only [size] <;> omega

end Instr

/-! ## Bodies -/

namespace Body

def size : Body → Nat
  | .empty => 0
  | .seq a b => a.size + b.size
  | .word _ | .recurse | .exit => 4
  | .literal _ => 8
  | .string u text => (Instr.string u text).size
  | .ifThen yes => 8 + yes.size
  | .ifElse yes no => 8 + yes.size + (8 + no.size)
  | .beginUntil body | .beginAgain body => body.size + 8
  | .beginWhile test body => test.size + 8 + (body.size + 8)
  | .doLoop body | .doPlusLoop body => 4 + (body.size + 8)

/-- The code at address `a`, in the definition whose token is `xt`. -/
def bytes (xt a : Nat) : Body → List UInt8
  | .empty => []
  | .seq b c => b.bytes xt a ++ c.bytes xt (a + b.size)
  | .word w => (Instr.word w).bytes
  | .literal v => (Instr.literal v).bytes
  | .string u text => (Instr.string u text).bytes
  | .recurse => (Instr.word xt).bytes
  | .exit => (Instr.plain .exit).bytes
  | .ifThen yes => (Instr.branch .jumpIfZero (a + 8 + yes.size)).bytes ++ yes.bytes xt (a + 8)
  | .ifElse yes no =>
    (Instr.branch .jumpIfZero (a + 8 + yes.size + 8)).bytes ++ (yes.bytes xt (a + 8) ++
      ((Instr.branch .jump (a + 8 + yes.size + 8 + no.size)).bytes ++ no.bytes xt (a + 8 + yes.size + 8)))
  | .beginUntil body => body.bytes xt a ++ (Instr.branch .jumpIfZero a).bytes
  | .beginAgain body => body.bytes xt a ++ (Instr.branch .jump a).bytes
  | .beginWhile test body =>
    test.bytes xt a ++ ((Instr.branch .jumpIfZero (a + test.size + 8 + body.size + 8)).bytes ++
      (body.bytes xt (a + test.size + 8) ++ (Instr.branch .jump a).bytes))
  | .doLoop body =>
    (Instr.plain .enterLoop).bytes ++ (body.bytes xt (a + 4) ++ (Instr.branch .loop (a + 4)).bytes)
  | .doPlusLoop body =>
    (Instr.plain .enterLoop).bytes ++ (body.bytes xt (a + 4) ++ (Instr.branch .plusLoop (a + 4)).bytes)

@[simp] theorem length_bytes (xt a : Nat) (b : Body) : (b.bytes xt a).length = b.size := by
  induction b generalizing a <;> simp_all [bytes, size] <;> omega

theorem dvd_size (b : Body) : 4 ∣ b.size := by
  induction b with
  | string u text => exact (Instr.string u text).dvd_size
  | empty | word | literal | recurse | exit => simp only [size]; omega
  | seq | ifThen | ifElse | beginUntil | beginAgain | beginWhile | doLoop | doPlusLoop =>
    simp only [size]; omega

/-- What the compiler has checked of a piece: its numbers are cells. -/
def Fits (xt : Nat) : Nat → Body → Prop
  | _, .word w => w ≤ Cell.maxNat
  | _, .recurse => xt ≤ Cell.maxNat
  | _, .string _ text => (Text.utf8 text).length ≤ Cell.maxNat
  | _, _ => True

end Body

/-! ## Definitions still open -/

namespace Outer

/-- Where the part that is being compiled begins, in a definition that begins at `entry`. -/
def start (entry : Nat) : Outer → Nat
  | .top => entry
  | .if_ o before => o.start entry + before.size + 8
  | .else_ o before yes => o.start entry + before.size + 8 + yes.size + 8
  | .begin_ o before => o.start entry + before.size
  | .while_ o before test => o.start entry + before.size + test.size + 8
  | .do_ o before => o.start entry + before.size + 4

/-- The code before the part that is being compiled. -/
def bytes (xt entry : Nat) : Outer → List UInt8
  | .top => []
  | .if_ o before =>
    o.bytes xt entry ++ (before.bytes xt (o.start entry) ++ (Instr.branch .jumpIfZero 0).bytes)
  | .else_ o before yes =>
    let a := o.start entry + before.size
    o.bytes xt entry ++
        (before.bytes xt (o.start entry) ++ ((Instr.branch .jumpIfZero (a + 8 + yes.size + 8)).bytes ++
      (yes.bytes xt (a + 8) ++ (Instr.branch .jump 0).bytes)))
  | .begin_ o before => o.bytes xt entry ++ before.bytes xt (o.start entry)
  | .while_ o before test =>
    o.bytes xt entry ++ (before.bytes xt (o.start entry) ++ (test.bytes xt (o.start entry + before.size) ++
      (Instr.branch .jumpIfZero 0).bytes))
  | .do_ o before => o.bytes xt entry ++ (before.bytes xt (o.start entry) ++ (Instr.plain .enterLoop).bytes)

/-- What the compiler keeps of the open structures. -/
def parts (entry : Nat) : Outer → List Part
  | .top => []
  | .if_ o before => .if_ (o.start entry + before.size + 4) :: o.parts entry
  | .else_ o before yes => .else_ (o.start entry + before.size + 8 + yes.size + 4) :: o.parts entry
  | .begin_ o before => .begin_ (Int32.ofNat (o.start entry + before.size)) :: o.parts entry
  | .while_ o before test =>
    .while_ (Int32.ofNat (o.start entry + before.size)) (o.start entry + before.size + test.size + 4) ::
        o.parts entry
  | .do_ o before => .do_ (Int32.ofNat (o.start entry + before.size + 4)) :: o.parts entry

theorem parts_eq_nil {entry : Nat} {o : Outer} (h : [] = o.parts entry) : o = .top := by
  cases o <;> first | rfl | cases h

theorem parts_eq_if {entry hole : Nat} {rest : List Part} {o : Outer}
    (h : .if_ hole :: rest = o.parts entry) :
    ∃ p c, o = .if_ p c ∧ hole = p.start entry + c.size + 4 ∧ rest = p.parts entry := by
  cases o <;> cases h
  exact ⟨_, _, rfl, rfl, rfl⟩

theorem parts_eq_else {entry hole : Nat} {rest : List Part} {o : Outer}
    (h : .else_ hole :: rest = o.parts entry) :
    ∃ p c yes, o = .else_ p c yes ∧ hole = p.start entry + c.size + 8 + yes.size + 4 ∧
    rest = p.parts entry := by
  cases o <;> cases h
  exact ⟨_, _, _, rfl, rfl, rfl⟩

theorem parts_eq_begin {entry : Nat} {start : Cell} {rest : List Part} {o : Outer}
    (h : .begin_ start :: rest = o.parts entry) :
    ∃ p c, o = .begin_ p c ∧ start = Int32.ofNat (p.start entry + c.size) ∧ rest = p.parts entry := by
  cases o <;> cases h
  exact ⟨_, _, rfl, rfl, rfl⟩

theorem parts_eq_while {entry hole : Nat} {start : Cell} {rest : List Part} {o : Outer}
    (h : .while_ start hole :: rest = o.parts entry) :
    ∃ p c test, o = .while_ p c test ∧ start = Int32.ofNat (p.start entry + c.size) ∧
      hole = p.start entry + c.size + test.size + 4 ∧ rest = p.parts entry := by
  cases o <;> cases h
  exact ⟨_, _, _, rfl, rfl, rfl, rfl⟩

theorem parts_eq_do {entry : Nat} {body : Cell} {rest : List Part} {o : Outer}
    (h : .do_ body :: rest = o.parts entry) :
    ∃ p c, o = .do_ p c ∧ body = Int32.ofNat (p.start entry + c.size + 4) ∧ rest = p.parts entry := by
  cases o <;> cases h
  exact ⟨_, _, rfl, rfl, rfl⟩

theorem length_bytes (xt entry : Nat) (o : Outer) : entry + (o.bytes xt entry).length = o.start entry := by
  induction o <;> simp_all [bytes, start] <;> omega

theorem dvd_start {entry : Nat} (h : 4 ∣ entry) (o : Outer) : 4 ∣ o.start entry := by
  induction o with
  | top => exact h
  | if_ o before ih | begin_ o before ih | do_ o before ih =>
    have := before.dvd_size
    simp only [start]
    omega
  | else_ o before b ih | while_ o before b ih =>
    have := before.dvd_size
    have := b.dvd_size
    simp only [start]
    omega

end Outer

namespace Spot

/-- The code of a definition so far. -/
def bytes (xt entry : Nat) (z : Spot) : List UInt8 :=
  z.outer.bytes xt entry ++ z.body.bytes xt (z.outer.start entry)

/-- Where that code ends. -/
def here (entry : Nat) (z : Spot) : Nat := z.outer.start entry + z.body.size

theorem length_bytes (xt entry : Nat) (z : Spot) : entry + (z.bytes xt entry).length = z.here entry := by
  have := z.outer.length_bytes xt entry
  simp only [bytes, here, List.length_append, Body.length_bytes]
  omega

theorem dvd_here {entry : Nat} (h : 4 ∣ entry) (z : Spot) : 4 ∣ z.here entry := by
  have := z.outer.dvd_start h
  have := z.body.dvd_size
  unfold here
  omega

end Spot

end Handheld
