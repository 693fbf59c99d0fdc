/-
  Handheld.Proofs.Emission — the compiler lays down the code of the structure it reads.

  Each emission appends the bytes of one instruction, and a patch fills in the target of one
  branch. So while a definition is read, its code so far is that of the place the reading is
  at (`Drafting`), and a phrase that is compiled takes both to the next place
  (`compilePhrase_ok`). At the end of a definition nothing is open, and its code is the code
  of its body followed by a return.
-/

import Handheld.Proofs.Layout
import Handheld.Proofs.Effects

namespace Handheld

variable {σ α : Type}

namespace Engine

/-! ## Acting on the machine from the engine -/

/-- The engine with another memory. -/
def withMemory (s : Engine σ) (m : Memory) : Engine σ := { s with machine := { s.machine with memory := m } }

@[simp] theorem memory_withMemory (s : Engine σ) (m : Memory) : (s.withMemory m).machine.memory = m := rfl

theorem onMachine_eq (act : Act σ α) (s : Engine σ) :
    onMachine act s = match act s.machine with
      | .ok a m => .ok a { s with machine := m }
      | .error e m => .error (.fault e) { s with machine := m } := rfl

theorem onMachine_ok {act : Act σ α} {s s' : Engine σ} {a : α} (h : onMachine act s = .ok a s') :
    ∃ m, act s.machine = .ok a m ∧ s' = { s with machine := m } := by
  rw [onMachine_eq] at h
  cases e : act s.machine with
  | ok b m => rw [e] at h; cases h; exact ⟨m, rfl, rfl⟩
  | error f m => rw [e] at h; cases h

theorem onMachine_error {act : Act σ α} {s s' : Engine σ} {e : Halt} (h : onMachine act s = .error e s') :
    ∃ f m, e = .fault f ∧ act s.machine = .error f m ∧ s' = { s with machine := m } := by
  rw [onMachine_eq] at h
  cases hact : act s.machine with
  | ok a m => rw [hact] at h; cases h
  | error f m => rw [hact] at h; cases h; exact ⟨f, m, rfl, rfl, rfl⟩

theorem onMemory_ok {op : Memory.Op α} {s s' : Engine σ} {a : α} (h : onMemory op s = .ok a s') :
    ∃ m, op s.machine.memory = .ok a m ∧ s' = s.withMemory m := by
  obtain ⟨m, hm, rfl⟩ := onMachine_ok h
  obtain ⟨mem, ho, rfl⟩ := Machine.onMemory_ok hm
  exact ⟨mem, ho, rfl⟩

theorem onMemory_of_ok {op : Memory.Op α} {s : Engine σ} {a : α} {m : Memory}
    (h : op s.machine.memory = .ok a m) : onMemory op s = .ok a (s.withMemory m) := by
  rw [onMemory, onMachine_eq, Machine.onMemory_eq, h]
  rfl

theorem onMemory_error {op : Memory.Op α} {s s' : Engine σ} {e : Halt} (h : onMemory op s = .error e s') :
    ∃ f m, op s.machine.memory = .error f m ∧ e = .fault (.memory f) ∧ s' = s.withMemory m := by
  rw [onMemory, onMachine_eq, Machine.onMemory_eq] at h
  cases ho : op s.machine.memory with
  | ok b m => rw [ho] at h; cases h
  | error f m => rw [ho] at h; cases h; exact ⟨f, m, rfl, rfl, rfl⟩

theorem onMachine_cell_ok {a : Nat} {v : Cell} {s s' : Engine σ}
    (h : onMachine (Machine.cell a) s = .ok v s') :
    a ≤ Cell.maxNat ∧ v = Int32.ofNat a ∧ s' = s := by
  obtain ⟨m, hm, rfl⟩ := onMachine_ok h
  unfold Machine.cell at hm
  cases hw : Memory.cellOfAddr a with
  | ok w =>
    rw [hw] at hm
    cases hm
    obtain ⟨ha, rfl⟩ := Memory.cellOfAddr_eq_ok hw
    exact ⟨ha, rfl, rfl⟩
  | error e => rw [hw] at hm; cases hm

theorem codeEnd_ok {v : Cell} {s s' : Engine σ} (h : codeEnd s = .ok v s') :
    v = Int32.ofNat s.machine.memory.here ∧ s' = s := by
  obtain ⟨_, _, hg, h⟩ := bind_ok_iff.mp h
  cases hg
  exact (onMachine_cell_ok h).2

/-! ## Laying down instructions -/

/-- The engine is where an instruction may be laid down. -/
structure Ready (s : Engine σ) : Prop where
  valid : s.machine.memory.Valid
  aligned : 4 ∣ s.machine.memory.here

/-- The engine with some bytes appended to its memory. -/
def Lays (s : Engine σ) (bytes : List UInt8) (s' : Engine σ) : Prop :=
  ∃ m, s' = s.withMemory m ∧ s.machine.memory.Appends bytes m

namespace Lays

variable {s s₁ s₂ : Engine σ} {xs ys : List UInt8}

theorem trans (h : s.Lays xs s₁) (g : s₁.Lays ys s₂) : s.Lays (xs ++ ys) s₂ := by
  obtain ⟨m₁, rfl, h⟩ := h
  obtain ⟨m₂, rfl, g⟩ := g
  exact ⟨m₂, rfl, h.trans g⟩

theorem ready (h : s.Lays xs s₁) (hr : s.Ready) (hd : 4 ∣ xs.length) : s₁.Ready := by
  obtain ⟨m₁, rfl, h⟩ := h
  have := hr.aligned
  exact ⟨h.valid hr.valid, by rw [memory_withMemory, h.here]; omega⟩

theorem here (h : s.Lays xs s₁) : s₁.machine.memory.here = s.machine.memory.here + xs.length := by
  obtain ⟨m₁, rfl, h⟩ := h
  exact h.here

end Lays

section

variable {s s' : Engine σ} (hr : s.Ready)

include hr

theorem bumpCell_lays {v : Cell} {a : Nat} (h : onMemory (Memory.bumpCell v) s = .ok a s') :
    a = s.machine.memory.here ∧ s.Lays v.toBytes s' := by
  obtain ⟨m, hm, rfl⟩ := onMemory_ok h
  obtain ⟨ha, hm⟩ := Memory.bumpCell_appends_aligned hr.valid hr.aligned hm
  exact ⟨ha, m, rfl, hm⟩

theorem emit_lays {v : Cell} (h : emit v s = .ok () s') : s.Lays v.toBytes s' := by
  obtain ⟨a, h⟩ := discard_ok_iff.mp h
  exact (bumpCell_lays hr h).2

theorem emitToken_lays {xt : Nat} (h : emitToken xt s = .ok () s') :
    xt ≤ Cell.maxNat ∧ s.Lays (Instr.word xt).bytes s' := by
  unfold emitToken at h
  cases hv : Cell.ofNat? xt with
  | some v =>
    rw [hv] at h
    obtain ⟨hx, rfl⟩ := Cell.ofNat?_eq_some hv
    exact ⟨hx, emit_lays hr h⟩
  | none => rw [hv] at h; cases h

theorem emitPrimitive_lays {p : Primitive} (h : emitPrimitive p s = .ok () s') :
    s.Lays (Instr.plain p).bytes s' :=
  (emitToken_lays hr h).2

theorem emitWith_lays {p : Primitive} {v : Cell} (h : emitWith p v s = .ok () s') :
    s.Lays (Instr.cellBytes p.token ++ v.toBytes) s' := by
  obtain ⟨_, s₁, hp, h⟩ := bind_ok_iff.mp h
  have hl := emitPrimitive_lays hr hp
  exact hl.trans (emit_lays (hl.ready hr ⟨1, rfl⟩) h)

theorem emitBack_lays {p : Primitive} {a : Nat} (h : emitWith p (Int32.ofNat a) s = .ok () s') :
    s.Lays (Instr.branch p a).bytes s' :=
  emitWith_lays hr h

/-- A branch without a target has nothing there yet, and the hole is after its token. -/
theorem emitBranch_lays {p : Primitive} {hole : Nat} (h : emitBranch p s = .ok hole s') :
    hole = s.machine.memory.here + 4 ∧ s.Lays (Instr.branch p 0).bytes s' := by
  obtain ⟨_, s₁, hp, hc⟩ := bind_ok_iff.mp h
  have hl := emitPrimitive_lays hr hp
  obtain ⟨rfl, hz⟩ := bumpCell_lays (hl.ready hr ⟨1, rfl⟩) hc
  exact ⟨hl.here, hl.trans hz⟩

theorem emitString_lays {u : StringUse} {text : String}
    (h : emitString (stringPrimitive u) text s = .ok () s') :
    (Text.utf8 text).length ≤ Cell.maxNat ∧ s.Lays (Instr.string u text).bytes s' := by
  obtain ⟨v, s₁, hv, hw⟩ := bind_ok_iff.mp h
  obtain ⟨hlen, rfl, rfl⟩ := onMachine_cell_ok hv
  obtain ⟨_, s₂, hw, hd⟩ := bind_ok_iff.mp hw
  have hl := emitWith_lays hr hw
  have hr₂ := hl.ready hr ⟨2, rfl⟩
  obtain ⟨_, s₃, hb, ha⟩ := bind_ok_iff.mp hd
  obtain ⟨a, hb⟩ := discard_ok_iff.mp hb
  obtain ⟨m₃, hm₃, rfl⟩ := onMemory_ok hb
  have hdata := (Memory.bumpBytes_appends hm₃).2
  obtain ⟨m₄, hm₄, rfl⟩ := onMemory_ok ha
  have hpad := Memory.align_appends hm₄
  have h4 := hr₂.aligned
  have hn :
      Memory.aligned m₃.here - m₃.here = wholeCells (Text.utf8 text).length - (Text.utf8 text).length := by
    rw [Memory.aligned_of_le (hdata.valid hr₂.valid).here_le_maxNat, hdata.here]
    unfold wholeCells
    omega
  rw [memory_withMemory, hn] at hpad
  have hs : s₁.Lays ((Instr.cellBytes (stringPrimitive u).token ++ Instr.cellBytes (Text.utf8 text).length) ++
      (Text.utf8 text ++
        List.replicate (wholeCells (Text.utf8 text).length - (Text.utf8 text).length) 0)) _ :=
    hl.trans ⟨m₄, rfl, hdata.trans hpad⟩
  rw [List.append_assoc] at hs
  exact ⟨hlen, hs⟩

end

end Engine

/-! ## A definition under way -/

namespace Engine

/-- Only the memory and the mode are new. -/
def Compiles (s s' : Engine σ) : Prop :=
  s' = { s with mode := s'.mode, machine := { s.machine with memory := s'.machine.memory } }

theorem Compiles.refl (s : Engine σ) : s.Compiles s := rfl

theorem Compiles.trans {s s₁ s₂ : Engine σ} (h : s.Compiles s₁) (g : s₁.Compiles s₂) : s.Compiles s₂ := by
  unfold Compiles at h g ⊢
  rw [g, h]

theorem Compiles.withMemory (s : Engine σ) (m : Memory) : s.Compiles (s.withMemory m) := rfl

theorem Compiles.withMode (s : Engine σ) (mode : Mode) : s.Compiles { s with mode := mode } := rfl

theorem Lays.compiles {s s' : Engine σ} {bytes : List UInt8} (h : s.Lays bytes s') : s.Compiles s' := by
  obtain ⟨m, rfl, -⟩ := h
  exact .withMemory s m

/-- The bytes stand at `entry`, and there the memory ends. -/
structure Laid (s : Engine σ) (entry : Nat) (bytes : List UInt8) : Prop where
  valid : s.machine.memory.Valid
  here : s.machine.memory.here = entry + bytes.length
  code : s.machine.memory.Holds entry bytes

theorem Laid.lays {s s' : Engine σ} {entry : Nat} {xs ys : List UInt8} (h : s.Laid entry xs)
    (hl : s.Lays ys s') : s'.Laid entry (xs ++ ys) := by
  obtain ⟨m, rfl, hm⟩ := hl
  exact ⟨hm.valid h.valid, by rw [memory_withMemory, hm.here, h.here, List.length_append, Nat.add_assoc],
    hm.holds_append h.code h.here.symm⟩

/-- A patch writes the address of the next instruction. -/
theorem patch_ok {hole : Nat} {s s' : Engine σ} (h : patch hole s = .ok () s') :
    s' = s.withMemory (s.machine.memory.setBytes hole (Instr.cellBytes s.machine.memory.here)) := by
  obtain ⟨v, s₁, hv, hs⟩ := bind_ok_iff.mp h
  obtain ⟨rfl, rfl⟩ := codeEnd_ok hv
  obtain ⟨m, hm, rfl⟩ := onMemory_ok hs
  rw [(Memory.storeCell_ok hm).2]
  rfl

/-- A branch that is patched goes to the next instruction. -/
theorem Laid.patch {s s' : Engine σ} {entry hole : Nat} {p : Primitive} {xs ys : List UInt8}
    (h : s.Laid entry (xs ++ ((Instr.branch p 0).bytes ++ ys))) (hh : hole = entry + xs.length + 4)
    (hp : patch hole s = .ok () s') :
    s.Compiles s' ∧ s'.Laid entry (xs ++ ((Instr.branch p s.machine.memory.here).bytes ++ ys)) := by
  have hv := h.valid
  have hcode :
      s.machine.memory.Holds entry ((xs ++ Instr.cellBytes p.token) ++ (Instr.cellBytes 0 ++ ys)) := by
    simpa [Instr.bytes_branch] using h.code
  have hset : hole = entry + (xs ++ Instr.cellBytes p.token).length := by simp [hh, Nat.add_assoc]
  rw [patch_ok hp, hset]
  refine ⟨.withMemory s _, ⟨?_, ?_⟩, ?_, ?_⟩
  · simpa using hv.here_le
  · simpa using hv.capacity_le
  · simpa using h.here
  · simpa [Instr.bytes_branch] using hcode.setBytes (Instr.cellBytes s.machine.memory.here) rfl

/-- The definition `d`, begun at `entry`, is being compiled, and its code so far is that of
    the place `z`. -/
structure Drafting (s : Engine σ) (entry : Nat) (d : Draft) (z : Spot) : Prop where
  mode : s.mode = .compile d
  aligned : 4 ∣ entry
  laid : s.Laid entry (z.bytes d.xt entry)
  parts : d.opened.map (·.part) = z.outer.parts entry
  fits : z.Each (Body.Fits d.xt)

namespace Drafting

variable {s s₁ s' : Engine σ} {entry : Nat} {d : Draft} {z z' : Spot}

theorem here (hd : s.Drafting entry d z) : s.machine.memory.here = z.here entry := by
  rw [hd.laid.here, Spot.length_bytes]

theorem ready (hd : s.Drafting entry d z) : s.Ready :=
  ⟨hd.laid.valid, by rw [hd.here]; exact z.dvd_here hd.aligned⟩

/-- An instruction more. -/
theorem snoc {piece : Body} (hd : s.Drafting entry d z) (hl : s.Lays (piece.bytes d.xt (z.here entry)) s')
    (hf : piece.Each (Body.Fits d.xt) z.outer.loops) : s'.Drafting entry d (z.snoc piece) where
  mode := by obtain ⟨m, rfl, -⟩ := hl; exact hd.mode
  aligned := hd.aligned
  laid := by
    have h := hd.laid.lays hl
    rwa [Spot.bytes, List.append_assoc] at h
  parts := hd.parts
  fits := Spot.each_snoc hd.fits hf

end Drafting

/-- The engine is at the place that the control word leads to. -/
def Follows (s : Engine σ) (entry : Nat) (d : Draft) (z : Spot) (k : Control) (s' : Engine σ) : Prop :=
  ∃ z' opened, Spot.control k z = some z' ∧ s'.Drafting entry { d with opened := opened } z' ∧ s.Compiles s'

/-- Another structure around what comes next. -/
theorem Drafting.reopen {s s₁ s' : Engine σ} {entry : Nat} {d : Draft} {z z' : Spot} {k : Control}
    {opened : List Open}
    (hd : s.Drafting entry d z) (hc : s.Compiles s₁) (hl : s₁.Laid entry (z'.bytes d.xt entry))
    (hp : opened.map (·.part) = z'.outer.parts entry) (hk : Spot.control k z = some z') (hr : k ≠ .recurse)
    (h : setOpened d opened s₁ = .ok () s') : s.Follows entry d z k s' := by
  cases h
  refine ⟨z', opened, hk, ⟨rfl, hd.aligned, ⟨hl.valid, hl.here, hl.code⟩, hp, ?_⟩, hc.trans (.withMode s₁ _)⟩
  exact Spot.each_control hd.fits hk (fun e => absurd e hr) fun _ => trivial

/-! ## Control words -/

section

variable {s s' : Engine σ} {entry : Nat} {d : Draft} {z : Spot} {t : Token} (hd : s.Drafting entry d z)

include hd

theorem compile_if (h : compileControl d .if_ t s = .ok () s') : s.Follows entry d z .if_ s' := by
  obtain ⟨hole, s₁, hb, ho⟩ := bind_ok_iff.mp h
  obtain ⟨rfl, hl⟩ := emitBranch_lays hd.ready hb
  refine hd.reopen hl.compiles ?_ ?_ rfl (by simp) ho
  · simpa [Spot.bytes, Outer.bytes, Body.bytes] using hd.laid.lays hl
  · simp [hd.parts, hd.here, Outer.parts, Spot.here]

theorem compile_else (h : compileControl d .else_ t s = .ok () s') : s.Follows entry d z .else_ s' := by
  obtain ⟨name, xt, mark, _ | ⟨⟨part, location⟩, opened⟩⟩ := d
  · cases h
  cases part with
  | else_ | begin_ | while_ | do_ => cases h
  | if_ hole =>
    obtain ⟨o, yes⟩ := z
    obtain ⟨o, c, rfl, rfl, hp⟩ := Outer.parts_eq_if hd.parts
    obtain ⟨skip, s₁, hb, h₁⟩ := bind_ok_iff.mp h
    obtain ⟨rfl, hl⟩ := emitBranch_lays hd.ready hb
    obtain ⟨_, s₂, hpatch, ho⟩ := bind_ok_iff.mp h₁
    have hn := o.length_bytes xt entry
    have hlaid :
        s₁.Laid entry ((o.bytes xt entry ++ c.bytes xt (o.start entry)) ++
          ((Instr.branch .jumpIfZero 0).bytes ++
        (yes.bytes xt (o.start entry + c.size + 8) ++ (Instr.branch .jump 0).bytes))) := by
      simpa [Spot.bytes, Outer.bytes, Outer.start] using hd.laid.lays hl
    obtain ⟨hc, hlaid⟩ := hlaid.patch (by simp; omega) hpatch
    have hh : s₁.machine.memory.here = o.start entry + c.size + 8 + yes.size + 8 := by
      rw [hl.here, hd.here]
      simp [Spot.here, Outer.start]
    rw [hh] at hlaid
    refine hd.reopen (hl.compiles.trans hc) ?_ ?_ rfl (by simp) ho
    · simpa [Spot.bytes, Outer.bytes, Body.bytes] using hlaid
    · simp [hp, hd.here, Outer.parts, Spot.here, Outer.start]

theorem compile_then (h : compileControl d .then_ t s = .ok () s') : s.Follows entry d z .then_ s' := by
  obtain ⟨name, xt, mark, _ | ⟨⟨part, location⟩, opened⟩⟩ := d
  · cases h
  obtain ⟨o, b⟩ := z
  cases part with
  | begin_ | while_ | do_ => cases h
  | if_ hole =>
    obtain ⟨o, c, rfl, rfl, hp⟩ := Outer.parts_eq_if hd.parts
    obtain ⟨_, s₁, hpatch, ho⟩ := bind_ok_iff.mp h
    have hn := o.length_bytes xt entry
    have hlaid :
        s.Laid entry ((o.bytes xt entry ++ c.bytes xt (o.start entry)) ++
          ((Instr.branch .jumpIfZero 0).bytes ++
        b.bytes xt (o.start entry + c.size + 8))) := by
      simpa [Spot.bytes, Outer.bytes, Outer.start] using hd.laid
    obtain ⟨hc, hlaid⟩ := hlaid.patch (by simp; omega) hpatch
    rw [hd.here] at hlaid
    refine hd.reopen hc ?_ hp rfl (by simp) ho
    simpa [Spot.bytes, Body.bytes, Spot.here, Outer.start] using hlaid
  | else_ hole =>
    obtain ⟨o, c, yes, rfl, rfl, hp⟩ := Outer.parts_eq_else hd.parts
    obtain ⟨_, s₁, hpatch, ho⟩ := bind_ok_iff.mp h
    have hn := o.length_bytes xt entry
    have hlaid : s.Laid entry ((o.bytes xt entry ++ (c.bytes xt (o.start entry) ++
        ((Instr.branch .jumpIfZero (o.start entry + c.size + 8 + yes.size + 8)).bytes ++
          yes.bytes xt (o.start entry + c.size + 8)))) ++
        ((Instr.branch .jump 0).bytes ++ b.bytes xt (o.start entry + c.size + 8 + yes.size + 8))) := by
      simpa [Spot.bytes, Outer.bytes, Outer.start] using hd.laid
    obtain ⟨hc, hlaid⟩ := hlaid.patch (by simp; omega) hpatch
    rw [hd.here] at hlaid
    refine hd.reopen hc ?_ hp rfl (by simp) ho
    simpa [Spot.bytes, Body.bytes, Spot.here, Outer.start] using hlaid

theorem compile_begin (h : compileControl d .begin_ t s = .ok () s') : s.Follows entry d z .begin_ s' := by
  obtain ⟨start, s₁, hc, ho⟩ := bind_ok_iff.mp h
  obtain ⟨rfl, rfl⟩ := codeEnd_ok hc
  refine hd.reopen (.refl s₁) ?_ ?_ rfl (by simp) ho
  · simpa [Spot.bytes, Outer.bytes, Body.bytes] using hd.laid
  · simp [hd.parts, hd.here, Outer.parts, Spot.here]

/-- Both ways to end a `begin` lay down a branch back to it. -/
theorem compile_back {k : Control} (hk : k = .until_ ∨ k = .again_) (h : compileControl d k t s = .ok () s') :
    s.Follows entry d z k s' := by
  obtain ⟨name, xt, mark, _ | ⟨⟨part, location⟩, opened⟩⟩ := d
  · rcases hk with rfl | rfl <;> cases h
  cases part with
  | if_ | else_ | while_ | do_ => rcases hk with rfl | rfl <;> cases h
  | begin_ start =>
    obtain ⟨o, b⟩ := z
    obtain ⟨o, c, rfl, rfl, hp⟩ := Outer.parts_eq_begin hd.parts
    rcases hk with rfl | rfl
    all_goals
      obtain ⟨_, s₁, he, ho⟩ := bind_ok_iff.mp h
      have hl := emitBack_lays hd.ready he
      refine hd.reopen hl.compiles ?_ hp rfl (by simp) ho
      simpa [Spot.bytes, Outer.bytes, Body.bytes, Outer.start] using hd.laid.lays hl

theorem compile_while (h : compileControl d .while_ t s = .ok () s') : s.Follows entry d z .while_ s' := by
  obtain ⟨name, xt, mark, _ | ⟨⟨part, location⟩, opened⟩⟩ := d
  · cases h
  cases part with
  | if_ | else_ | while_ | do_ => cases h
  | begin_ start =>
    obtain ⟨o, test⟩ := z
    obtain ⟨o, c, rfl, rfl, hp⟩ := Outer.parts_eq_begin hd.parts
    obtain ⟨hole, s₁, hb, ho⟩ := bind_ok_iff.mp h
    obtain ⟨rfl, hl⟩ := emitBranch_lays hd.ready hb
    refine hd.reopen hl.compiles ?_ ?_ rfl (by simp) ho
    · simpa [Spot.bytes, Outer.bytes, Body.bytes, Outer.start] using hd.laid.lays hl
    · simp [hp, hd.here, Outer.parts, Spot.here, Outer.start]

theorem compile_repeat (h : compileControl d .repeat_ t s = .ok () s') : s.Follows entry d z .repeat_ s' := by
  obtain ⟨name, xt, mark, _ | ⟨⟨part, location⟩, opened⟩⟩ := d
  · cases h
  cases part with
  | if_ | else_ | begin_ | do_ => cases h
  | while_ start hole =>
    obtain ⟨o, b⟩ := z
    obtain ⟨o, c, test, rfl, rfl, rfl, hp⟩ := Outer.parts_eq_while hd.parts
    obtain ⟨_, s₁, he, h₁⟩ := bind_ok_iff.mp h
    have hl := emitBack_lays hd.ready he
    obtain ⟨_, s₂, hpatch, ho⟩ := bind_ok_iff.mp h₁
    -- The hole stands between the test and the body, so the code is taken apart there.
    have hn := o.length_bytes xt entry
    have hlaid :
        s₁.Laid entry
          ((o.bytes xt entry ++ (c.bytes xt (o.start entry) ++ test.bytes xt (o.start entry + c.size))) ++
        ((Instr.branch .jumpIfZero 0).bytes ++ (b.bytes xt (o.start entry + c.size + test.size + 8) ++
          (Instr.branch .jump (o.start entry + c.size)).bytes))) := by
      simpa [Spot.bytes, Outer.bytes, Outer.start] using hd.laid.lays hl
    obtain ⟨hc, hlaid⟩ := hlaid.patch (by simp; omega) hpatch
    have hh : s₁.machine.memory.here = o.start entry + c.size + test.size + 8 + b.size + 8 := by
      rw [hl.here, hd.here]
      simp [Spot.here, Outer.start]
    rw [hh] at hlaid
    refine hd.reopen (hl.compiles.trans hc) ?_ hp rfl (by simp) ho
    simpa [Spot.bytes, Body.bytes] using hlaid

theorem compile_do (h : compileControl d .do_ t s = .ok () s') : s.Follows entry d z .do_ s' := by
  obtain ⟨_, s₁, he, h₁⟩ := bind_ok_iff.mp h
  have hl := emitPrimitive_lays hd.ready he
  obtain ⟨body, s₂, hc, ho⟩ := bind_ok_iff.mp h₁
  obtain ⟨rfl, rfl⟩ := codeEnd_ok hc
  refine hd.reopen hl.compiles ?_ ?_ rfl (by simp) ho
  · simpa [Spot.bytes, Outer.bytes, Body.bytes] using hd.laid.lays hl
  · simp [hd.parts, hl.here, hd.here, Outer.parts, Spot.here]

/-- And both ways to end a `do`. -/
theorem compile_loop {k : Control} (hk : k = .loop_ ∨ k = .plusLoop)
    (h : compileControl d k t s = .ok () s') : s.Follows entry d z k s' := by
  obtain ⟨name, xt, mark, _ | ⟨⟨part, location⟩, opened⟩⟩ := d
  · rcases hk with rfl | rfl <;> cases h
  cases part with
  | if_ | else_ | begin_ | while_ => rcases hk with rfl | rfl <;> cases h
  | do_ start =>
    obtain ⟨o, b⟩ := z
    obtain ⟨o, c, rfl, rfl, hp⟩ := Outer.parts_eq_do hd.parts
    rcases hk with rfl | rfl
    all_goals
      obtain ⟨_, s₁, he, ho⟩ := bind_ok_iff.mp h
      have hl := emitBack_lays hd.ready he
      refine hd.reopen hl.compiles ?_ hp rfl (by simp) ho
      simpa [Spot.bytes, Outer.bytes, Body.bytes, Outer.start] using hd.laid.lays hl

/-- A control word that is compiled leads on, but for the one that ends the definition. -/
theorem compileControl_ok {k : Control} (hk : k ≠ .semicolon) (h : compileControl d k t s = .ok () s') :
    s.Follows entry d z k s' := by
  cases k with
  | semicolon => exact absurd rfl hk
  | if_ => exact compile_if hd h
  | else_ => exact compile_else hd h
  | then_ => exact compile_then hd h
  | begin_ => exact compile_begin hd h
  | until_ => exact compile_back hd (.inl rfl) h
  | again_ => exact compile_back hd (.inr rfl) h
  | while_ => exact compile_while hd h
  | repeat_ => exact compile_repeat hd h
  | do_ => exact compile_do hd h
  | loop_ => exact compile_loop hd (.inl rfl) h
  | plusLoop => exact compile_loop hd (.inr rfl) h
  | recurse =>
    obtain ⟨hx, hl⟩ := emitToken_lays hd.ready h
    exact ⟨_, d.opened, rfl, hd.snoc hl hx, hl.compiles⟩
  | exit =>
    have hl := emitPrimitive_lays hd.ready h
    exact ⟨_, d.opened, rfl, hd.snoc hl trivial, hl.compiles⟩

/-- A phrase that is compiled is read, and the code laid down for it. -/
theorem compilePhrase_ok {p : Phrase} (hp : ∀ t, p ≠ .control .semicolon t)
    (h : compilePhrase d p s = .ok () s') :
    ∃ z' opened, z.read s.dict p = some z' ∧ s'.Drafting entry { d with opened := opened } z' ∧
    s.Compiles s' := by
  cases p with
  | word t =>
    obtain ⟨_, _, hg, h₁⟩ := bind_ok_iff.mp h
    cases hg
    cases hs : s.dict.sense? t.text with
    | none => rw [hs] at h₁; cases h₁
    | some sense =>
      rw [hs] at h₁
      cases sense with
      | word xt =>
        obtain ⟨hx, hl⟩ := emitToken_lays hd.ready h₁
        exact ⟨z.snoc (.word xt), d.opened, by simp only [Spot.read, hs], hd.snoc hl hx, hl.compiles⟩
      | literal v =>
        have hl := emitWith_lays hd.ready h₁
        exact ⟨z.snoc (.literal v), d.opened, by simp only [Spot.read, hs], hd.snoc hl trivial, hl.compiles⟩
  | control k t =>
    have hk : k ≠ .semicolon := by
      rintro rfl
      exact hp t rfl
    exact compileControl_ok hd hk h
  | define => cases h
  | text u t body =>
    cases body with
    | none => cases h
    | some text =>
      obtain ⟨hx, hl⟩ := emitString_lays hd.ready h
      exact ⟨_, d.opened, rfl, hd.snoc hl hx, hl.compiles⟩
  | comment closed =>
    cases h
    exact ⟨z, d.opened, rfl, hd, .refl s⟩

/-- A definition ends where nothing is open, with a return after its body. -/
theorem compile_semicolon (h : compileControl d .semicolon t s = .ok () s') :
    z.outer = .top ∧ ∃ m, s' = { s.withMemory m with dict := s.dict.reveal d.xt, mode := .run } ∧
      s.Lays (Instr.plain .exit).bytes (s.withMemory m) := by
  obtain ⟨name, xt, mark, _ | ⟨o, opened⟩⟩ := d
  · obtain ⟨o, b⟩ := z
    obtain rfl := Outer.parts_eq_nil hd.parts
    obtain ⟨_, s₁, he, h₁⟩ := bind_ok_iff.mp h
    have hl := emitPrimitive_lays hd.ready he
    obtain ⟨m, rfl, hm⟩ := hl
    cases h₁
    exact ⟨rfl, m, rfl, m, rfl, hm⟩
  · cases h

end

end Engine

end Handheld
