/-
  Handheld.Proofs.Stepping — what the machine does with an instruction that was laid down.

  A machine that stands at an instruction of some code reads its token, and with it the
  operand or the string that follows, and goes on behind it, or where a branch leads
  (`step_ordinary`, `step_branch`, `step_string`). That needs no more than that the code is
  where it was laid down (`Carries`), which allocations keep, and stores that are aimed
  elsewhere.
-/

import Handheld.Proofs.Layout
import Handheld.Proofs.Effects

namespace Handheld

variable {σ α β : Type}

/-! ## Code in memory -/

/-- The bytes are part of the code that begins at `lo`, and stand at `a`. -/
def Stands (lo : Nat) (code : List UInt8) (a : Nat) (bytes : List UInt8) : Prop :=
  ∃ before rest, code = before ++ (bytes ++ rest) ∧ a = lo + before.length

namespace Stands

variable {lo a : Nat} {code xs ys : List UInt8}

theorem whole (lo : Nat) (code : List UInt8) : Stands lo code lo code := ⟨[], [], by simp, by simp⟩

theorem left (h : Stands lo code a (xs ++ ys)) : Stands lo code a xs := by
  obtain ⟨before, rest, rfl, rfl⟩ := h
  exact ⟨before, ys ++ rest, by simp, rfl⟩

theorem right (h : Stands lo code a (xs ++ ys)) : Stands lo code (a + xs.length) ys := by
  obtain ⟨before, rest, rfl, rfl⟩ := h
  exact ⟨before ++ xs, rest, by simp, by simp [Nat.add_assoc]⟩

theorem afterPlain {p : Primitive} (h : Stands lo code a ((Instr.plain p).bytes ++ ys)) :
    Stands lo code (a + 4) ys :=
  h.right

theorem afterBranch {p : Primitive} {target : Nat}
    (h : Stands lo code a ((Instr.branch p target).bytes ++ ys)) : Stands lo code (a + 8) ys :=
  h.right

theorem afterBody {xt b : Nat} {body : Body} (h : Stands lo code a (body.bytes xt b ++ ys)) :
    Stands lo code (a + body.size) ys := by
  rw [← body.length_bytes xt b]
  exact h.right

theorem le (h : Stands lo code a xs) : lo ≤ a := by
  obtain ⟨before, rest, -, rfl⟩ := h
  exact Nat.le_add_right ..

theorem end_le (h : Stands lo code a xs) : a + xs.length ≤ lo + code.length := by
  obtain ⟨before, rest, rfl, rfl⟩ := h
  simp only [List.length_append]
  omega

end Stands

namespace Memory

/-- The code is where it was laid down, in memory handed out. -/
structure Carries (m : Memory) (lo : Nat) (code : List UInt8) : Prop where
  valid : m.Valid
  inside : lo + code.length ≤ m.here
  holds : m.Holds lo code

namespace Carries

variable {m m' : Memory} {lo a len : Nat} {code bytes : List UInt8}

theorem grows (h : m.Carries lo code) (hg : m.Grows m') : m'.Carries lo code :=
  ⟨hg.valid h.valid, Nat.le_trans h.inside hg.here_le, hg.holds h.holds h.inside⟩

theorem stores (h : m.Carries lo code) (hs : Stores a len m m') (hd : a + len ≤ lo ∨ lo + code.length ≤ a) :
    m'.Carries lo code := by
  refine ⟨⟨?_, ?_⟩, ?_, hs.holds h.holds (by omega)⟩
  · rw [hs.here, hs.capacity]; exact h.valid.here_le
  · rw [hs.capacity]; exact h.valid.capacity_le
  · rw [hs.here]; exact h.inside

/-- A part of the code is where it should be. -/
theorem part (h : m.Carries lo code) (hb : Stands lo code a bytes) :
    m.Holds a bytes ∧ a + bytes.length ≤ m.here := by
  obtain ⟨before, rest, rfl, rfl⟩ := hb
  have hi := h.inside
  simp only [List.length_append] at hi
  exact ⟨(holds_append.mp (holds_append.mp h.holds).2).1, by omega⟩

end Carries

end Memory

/-! ## Reading an instruction -/

namespace Machine

variable {m : Machine σ} {lo a base n : Nat} {code rest : List UInt8}

theorem fetchCell_at (hc : m.memory.Carries lo code) {v : Cell} (hv : Stands lo code a v.toBytes)
    (ip : Option Nat) (base : Nat) :
    onMemory (Memory.fetchCell a) (m.placed ip base) = .ok v (m.placed ip base) := by
  obtain ⟨hh, hle⟩ := hc.part hv
  have hcap : a + 4 ≤ m.memory.capacity := Nat.le_trans hle hc.valid.here_le
  rw [onMemory_eq, memory_placed, Memory.fetchCell_of_le hcap, Memory.Holds.cellAt hh]
  rfl

/-- The operand is read, and the machine is behind it. -/
theorem operand_at (hc : m.memory.Carries lo code) {v : Cell} (hv : Stands lo code a v.toBytes)
    (f : Cell → Act σ α) :
    (operand >>= f) (m.placed (some a) base) = f v (m.placed (some (a + 4)) base) := by
  refine bind_of_ok ?_
  rw [operand, bind_of_ok (show getIp (m.placed (some a) base) = .ok a (m.placed (some a) base) from rfl),
    bind_of_ok (fetchCell_at hc hv _ _)]
  rfl

theorem jumpTo_ofNat {target : Nat} (ht : target ≤ Cell.maxNat) (ip : Option Nat) (base : Nat) :
    jumpTo (Int32.ofNat target) (m.placed ip base) = .ok () (m.placed (some target) base) := by
  have ha : (address (Int32.ofNat target) : Act σ Nat) = pure target := by
    unfold address
    rw [Memory.addrOfCell_ofNat ht]
  rw [jumpTo, ha]
  rfl

end Machine

/-- The token of one of the compiler's instructions is its place among them. -/
theorem Primitive.runtime_token {p : Primitive} (hp : p.isControl = true) :
    ∃ h : p.token < runtime.length, runtime[p.token].2 = p := by
  have ht : p.token < runtime.length := by
    refine List.findIdx_lt_length_of_exists ?_
    cases p <;> cases hp <;> simp [runtime]
  exact ⟨ht, of_decide_eq_true
      (List.findIdx_getElem (p := fun w : String × Primitive => decide (w.2 = p)) (w := ht))⟩

namespace Dictionary

variable {d : Dictionary σ} {m : Machine σ} {lo a base : Nat} {code : List UInt8}

/-- The first words are the compiler's instructions. -/
def Rooted (d : Dictionary σ) : Prop :=
  ∀ xt < Primitive.runtime.length, d.get? xt = (initial [] : Dictionary σ).get? xt

theorem get?_initial_nil {xt : Nat} (hx : xt < Primitive.runtime.length) :
    (initial [] : Dictionary σ).get? xt =
    some ⟨.ofString Primitive.runtime[xt].1, .builtin Primitive.runtime[xt].2, true⟩ := by
  have h : (initial [] : Dictionary σ).entries = (Primitive.runtime.map fun w =>
      ⟨.ofString w.1, .builtin w.2, true⟩).toArray := rfl
  rw [get?, h, List.getElem?_toArray, List.getElem?_map, List.getElem?_eq_getElem hx]
  rfl

theorem Rooted.get?_token (hd : d.Rooted) {p : Primitive} (hp : p.isControl = true) :
    p.token ≤ Cell.maxNat ∧ ∃ e, d.get? p.token = some e ∧ e.kind = .builtin p := by
  obtain ⟨ht, hword⟩ := Primitive.runtime_token hp
  refine ⟨Nat.le_trans (Nat.le_of_lt ht) (by decide), _, (hd _ ht).trans (get?_initial_nil ht), ?_⟩
  rw [hword]

/-- The compiler's instructions are no words of a program. -/
theorem Rooted.le_of_tame (hd : d.Rooted) {xt : Nat} {e : Entry σ} (he : d.get? xt = some e)
    (hk : e.kind.isTame = true) : Primitive.runtime.length ≤ xt := by
  rcases Nat.lt_or_ge xt Primitive.runtime.length with hx | hx
  · have hcontrol : Primitive.runtime[xt].2.isControl = true :=
      (Primitive.isControl_iff_runtime _).mpr (List.mem_map_of_mem (List.getElem_mem hx))
    rw [hd xt hx, get?_initial_nil hx] at he
    cases he
    simp [Kind.isTame, hcontrol] at hk
  · exact hx

/-- The word whose token stands at the instruction pointer acts, behind its token. -/
theorem step_at (hc : m.memory.Carries lo code) {xt : Nat} (hx : xt ≤ Cell.maxNat)
    (hs : Stands lo code a (Instr.cellBytes xt)) {e : Entry σ} (he : d.get? xt = some e) :
    d.step (m.placed (some a) base) = e.kind.perform (m.placed (some (a + 4)) base) := by
  have hcount : (Machine.count (Int32.ofNat xt) (.badToken (Int32.ofNat xt)) : Act σ Nat) = pure xt := by
    unfold Machine.count
    rw [Cell.toNat?_ofNat hx]
  have hperform : d.perform xt = e.kind.perform := by rw [perform, he]
  rw [step, bind_of_ok (get_apply _)]
  show (Machine.onMemory (Memory.fetchCell a) >>= _) _ = _
  rw [bind_of_ok (Machine.fetchCell_at hc hs _ _)]
  show (Machine.count (Int32.ofNat xt) (.badToken (Int32.ofNat xt)) >>= d.perform)
      (m.placed (some (a + 4)) base) = _
  rw [hcount, ← hperform]
  rfl

end Dictionary

/-! ## Branches -/

namespace Primitive

open Machine

/-- Moves the index of the innermost loop and tells whether the loop goes on. -/
def advance (step : Cell) : Act σ Bool := do
  let index ← rpop
  let limit ← rpeek
  if crosses (index - limit) step then
    discard rpop
    return false
  else
    rpush (index + step)
    return true

/-- Takes a flag from the stack and tells whether it is zero. -/
def popZero : Act σ Bool := do return decide ((← pop) = 0)

/-- What a branch, or the end of a loop, decides: whether to go where its operand says. -/
def decides : Primitive → Act σ Bool
  | .jump => pure true
  | .jumpIfZero => popZero
  | .loop => advance 1
  | .plusLoop => do advance (← pop)
  | _ => pure false

/-- The instructions whose operand is an address to go to. -/
def isBranch : Primitive → Bool
  | .jump | .jumpIfZero | .loop | .plusLoop => true
  | _ => false

theorem isControl_of_isBranch {p : Primitive} (h : p.isBranch = true) : p.isControl = true := by
  cases p <;> cases h <;> rfl

theorem placeless_advance (step : Cell) : Act.Placeless (advance step : Act σ Bool) := by
  have hc := Act.Placeless.closed (σ := σ)
  refine .bind (.onReturn _) fun index => .bind (.onReturn _) fun limit => ?_
  split
  · exact .bind (hc.discard (.onReturn _)) fun _ => .pure false
  · exact .bind (.onReturn _) fun _ => .pure true

theorem placeless_decides (p : Primitive) : Act.Placeless (p.decides : Act σ Bool) := by
  cases p
  case jumpIfZero => exact .bind (.onData _) fun _ => .pure _
  case loop => exact placeless_advance 1
  case plusLoop => exact .bind (.onData _) fun v => placeless_advance v
  all_goals exact .pure _

theorem grows_advance (step : Cell) :
    Keeps (fun m m' : Machine σ => m.memory.Grows m'.memory) (advance step : Act σ Bool) := by
  have hc := growing_partWise (σ := σ) |>.closed
  have hr : Act.Returning (σ := σ) fun x => Keeps (fun m m' : Machine σ => m.memory.Grows m'.memory) x :=
    returning_keeps fun m _ _ => Memory.Grows.ordered.refl m.memory
  refine hc.bind hr.rpop fun index => hc.bind hc.rpeek fun limit => ?_
  split
  · exact hc.bind (hc.discard hr.rpop) fun _ => hc.pure false
  · exact hc.bind (hr.rpush _) fun _ => hc.pure true

theorem grows_decides (p : Primitive) :
    Keeps (fun m m' : Machine σ => m.memory.Grows m'.memory) (p.decides : Act σ Bool) := by
  have hc := growing_partWise (σ := σ) |>.closed
  cases p
  case jumpIfZero => exact hc.bind hc.pop fun _ => hc.pure _
  case loop => exact grows_advance 1
  case plusLoop => exact hc.bind hc.pop fun v => grows_advance v
  all_goals exact hc.pure _

theorem advanceLoop_eq (step : Cell) :
    (advanceLoop step : Act σ Unit) =
      (operand >>= fun body => advance step >>= fun again => if again then jumpTo body else pure ()) := by
  unfold advanceLoop advance
  simp only [bind_assoc]
  congr 1
  funext body
  congr 1
  funext index
  congr 1
  funext limit
  split <;> simp

section

variable {m : Machine σ} {lo a base target : Nat} {code : List UInt8} (ht : target ≤ Cell.maxNat)
  (hs : Stands lo code a (Instr.cellBytes target))

include ht hs

theorem branch_at (hc : m.memory.Carries lo code) {x : Act σ Bool} (hx : Act.Placeless x) :
    (operand >>= fun v => x >>= fun taken => if taken then jumpTo v else pure ()) (m.placed (some a) base) =
      match x m with
      | .ok taken m' => .ok () (m'.placed (some (if taken then target else a + 4)) base)
      | .error f m' => .error f (m'.placed (some (a + 4)) base) := by
  rw [operand_at hc hs, bind_apply, hx]
  rcases x m with ⟨taken, m'⟩ | ⟨f, m'⟩
  · cases taken with
    | true => exact jumpTo_ofNat ht _ _
    | false => rfl
  · rfl

/-- A branch does what it decides and then goes to its target or on. -/
theorem run_branch (hc : m.memory.Carries lo code) {p : Primitive} (hp : p.isBranch = true) :
    (∀ taken m', p.decides m = .ok taken m' →
      p.run (m.placed (some a) base) = .ok () (m'.placed (some (if taken then target else a + 4)) base)) ∧
    (∀ f m', p.decides m = .error f m' → ∃ ip, p.run (m.placed (some a) base) =
      .error f (m'.placed ip base)) := by
  have hrun {x : Act σ Bool} (hx : Act.Placeless x) (hm : m.memory.Carries lo code)
      (h : (p.run : Act σ Unit) = operand >>= fun v => x >>= fun taken =>
        if taken then jumpTo v else pure ()) :
      (∀ taken m', x m = .ok taken m' →
        p.run (m.placed (some a) base) = .ok () (m'.placed (some (if taken then target else a + 4)) base)) ∧
      (∀ f m', x m = .error f m' → ∃ ip, p.run (m.placed (some a) base) = .error f (m'.placed ip base)) := by
    rw [h, branch_at ht hs hm hx]
    exact ⟨fun taken m' e => by rw [e], fun f m' e => ⟨some (a + 4), by rw [e]⟩⟩
  cases p <;> cases hp
  case jump => exact hrun (placeless_decides .jump) hc (by simp [run, decides])
  case jumpIfZero => exact hrun (placeless_decides .jumpIfZero) hc (by simp [run, decides, popZero])
  case loop => exact hrun (placeless_decides .loop) hc (advanceLoop_eq 1)
  case plusLoop =>
    -- the step is taken from the stack before the operand is read
    have hpop : pop (m.placed (some a) base) = mapState (·.placed (some a) base) (pop m) :=
      Act.Placeless.onData Stack.pop m _ _
    simp only [run, decides, bind_apply, hpop]
    rcases e : pop m with ⟨v, m₁⟩ | ⟨f, m₁⟩
    · have hc₁ : m₁.memory.Carries lo code := by rw [(pop_ok e).2]; exact hc
      simp only [mapState, advanceLoop_eq, branch_at ht hs hc₁ (placeless_advance v)]
      exact ⟨fun taken m' e => by rw [e], fun f m' e => ⟨some (a + 4), by rw [e]⟩⟩
    · exact ⟨fun taken m' e => (by cases e), fun f' m' e => ⟨some a, by cases e; rfl⟩⟩

end

end Primitive

/-! ## Strings -/

/-- What becomes of a string of `n` bytes that is stored at `a`. -/
def StringUse.act (u : StringUse) (a n : Nat) : Act σ Unit :=
  match u with
  | .print => Primitive.printBytes a n
  | .push => do
    Machine.push (← Machine.cell a)
    Machine.push (Int32.ofNat n)

theorem StringUse.act_of_closed {P : ∀ {α : Type}, Act σ α → Prop} (hc : Act.Closed P) (u : StringUse)
    (a n : Nat) : P (u.act a n : Act σ Unit) := by
  cases u with
  | print => exact hc.printBytes a n
  | push => exact hc.bind (hc.cell a) fun v => hc.bind (hc.push v) fun _ => hc.push _

namespace Primitive

open Machine

/-- A string is used where it stands, and the machine goes on behind it. -/
theorem run_string {m : Machine σ} {lo a base : Nat} {code : List UInt8} (hc : m.memory.Carries lo code)
    (u : StringUse)
    {data pad : List UInt8} (hs : Stands lo code a (Instr.cellBytes data.length ++ (data ++ pad)))
    (ha : 4 ∣ a) :
    (Engine.stringPrimitive u).run (m.placed (some a) base) =
      mapState (·.placed (some (a + 4 + wholeCells data.length)) base) (u.act (a + 4) data.length m) := by
  have hle : a + 4 + data.length ≤ Cell.maxNat := by
    have hin := (hc.part hs).2
    have := hc.valid.here_le_maxNat
    simp only [List.length_append, Instr.length_cellBytes] at hin
    omega
  have hnext : Memory.aligned (a + 4 + data.length) = a + 4 + wholeCells data.length := by
    rw [Memory.aligned_of_le hle]
    unfold wholeCells
    omega
  have hcount : (count (Int32.ofNat data.length) .missingOperand : Act σ Nat) = pure data.length := by
    unfold count
    rw [Cell.toNat?_ofNat (by omega)]
  have hinline : (inlineString : Act σ (Nat × Nat)) (m.placed (some a) base) =
      .ok (a + 4, data.length) (m.placed (some (a + 4 + wholeCells data.length)) base) := by
    rw [inlineString, operand_at hc hs.left, hcount, ← hnext]
    rfl
  have hrun : ((Engine.stringPrimitive u).run : Act σ Unit) = inlineString >>= fun s => u.act s.1 s.2 := by
    cases u <;> rfl
  rw [hrun, bind_of_ok hinline]
  exact u.act_of_closed Act.Placeless.closed (a + 4) data.length m _ _

end Primitive

/-! ## Words -/

/-- The store that a word makes on the machine when it succeeds. -/
def Kind.stores (m : Machine σ) : Kind σ → List (Nat × Nat)
  | .builtin p => (p.target? m).toList
  | _ => []

/-- The store does not touch the bytes from `lo` up to `hi`. -/
def Apart (lo hi : Nat) (w : Nat × Nat) : Prop := w.1 + w.2 ≤ lo ∨ hi ≤ w.1

theorem Kind.placeless_perform {k : Kind σ} (ho : k.isOrdinary = true) : Act.Placeless k.perform := by
  cases k with
  | builtin p => exact .run (by simpa [isOrdinary] using ho)
  | native arity f => exact .callNative arity f
  | constant v => exact .onData _
  | hook | compiled => cases ho

/-- Without a store, all that a word does to the memory is that it grows. -/
theorem Kind.grows_perform {k : Kind σ} (ho : k.isOrdinary = true)
    (hs : ∀ p, k = .builtin p → p.isStore = false) :
    Keeps (fun m m' : Machine σ => m.memory.Grows m'.memory) k.perform := by
  have hg := Machine.growing_partWise (σ := σ)
  cases k with
  | hook | compiled => cases ho
  | builtin p => exact Primitive.grows_run (hs p rfl)
  | constant v => exact hg.closed.push v
  | native arity f =>
    refine Machine.keeps_callNative hg.toShallow (fun m args => ?_) arity
    rw [Machine.stateAfter_onSurface]
    exact Memory.Grows.ordered.refl _

/-- A word that stores nowhere into the code leaves it where it was. -/
theorem Kind.carries_perform {k : Kind σ} (ho : k.isOrdinary = true) {m m' : Machine σ} {lo : Nat}
    {code : List UInt8}
    (hc : m.memory.Carries lo code) (hs : ∀ w ∈ k.stores m, Apart lo (lo + code.length) w)
    (h : k.perform m = .ok () m') :
    m'.memory.Carries lo code := by
  by_cases hp : ∀ p, k = .builtin p → p.isStore = false
  · exact hc.grows ((grows_perform ho hp).of_ok h)
  · obtain ⟨p, rfl, hstore⟩ : ∃ p, k = .builtin p ∧ p.isStore = true := by simpa using hp
    obtain ⟨a, len, ht, hm⟩ := Primitive.storeRun_ok hstore h
    exact hc.stores hm (hs (a, len) (by simp [stores, ht]))

theorem Kind.grows_of_error {k : Kind σ} (ho : k.isOrdinary = true) {m m' : Machine σ} {f : Fault}
    (h : k.perform m = .error f m') : m.memory.Grows m'.memory := by
  by_cases hp : ∀ p, k = .builtin p → p.isStore = false
  · exact (grows_perform ho hp).of_error h
  · obtain ⟨p, rfl, hstore⟩ : ∃ p, k = .builtin p ∧ p.isStore = true := by simpa using hp
    rw [Primitive.storeRun_error hstore h]
    exact Memory.Grows.ordered.refl _

/-! ## Steps -/

namespace Dictionary

variable {d : Dictionary σ} {m : Machine σ} {lo a base : Nat} {code : List UInt8}
    (hc : m.memory.Carries lo code)

include hc

/-- A word that acts on its own does so behind its token. -/
theorem step_ordinary {xt : Nat} (hx : xt ≤ Cell.maxNat) {e : Entry σ} (he : d.get? xt = some e)
    (ho : e.kind.isOrdinary = true) (hs : Stands lo code a (Instr.word xt).bytes) :
    d.step (m.placed (some a) base) = mapState (·.placed (some (a + 4)) base) (e.kind.perform m) := by
  rw [step_at hc hx hs he]
  exact Kind.placeless_perform ho _ _ _

variable (hd : d.Rooted)

include hd

/-- The compiler's own instruction acts behind its token. -/
theorem step_token {p : Primitive} (hp : p.isControl = true)
    (hs : Stands lo code a (Instr.cellBytes p.token)) :
    d.step (m.placed (some a) base) = p.run (m.placed (some (a + 4)) base) := by
  obtain ⟨ht, e, he, hk⟩ := hd.get?_token hp
  rw [step_at hc ht hs he, hk]
  rfl

theorem step_literal {v : Cell} (hs : Stands lo code a (Instr.literal v).bytes) :
    d.step (m.placed (some a) base) = mapState (·.placed (some (a + 8)) base) (Machine.push v m) := by
  have hv : Stands lo code (a + 4) v.toBytes := hs.right
  rw [step_token hc hd rfl hs.left]
  exact (Machine.operand_at hc hv Machine.push).trans (Act.Placeless.onData _ m _ _)

theorem step_enterLoop (hs : Stands lo code a (Instr.plain .enterLoop).bytes) :
    d.step (m.placed (some a) base) =
      mapState (·.placed (some (a + 4)) base) (Primitive.enterLoop.run m) := by
  have hplaceless : Act.Placeless (Primitive.enterLoop.run : Act σ Unit) :=
    .bind (.onData _) fun _ => .bind (.onData _) fun _ => .bind (.onReturn _) fun _ => .onReturn _
  rw [step_token hc hd rfl hs]
  exact hplaceless m _ _

/-- A branch does what it decides, and goes to its target or on. -/
theorem step_branch {p : Primitive} (hp : p.isBranch = true) {target : Nat} (ht : target ≤ Cell.maxNat)
    (hs : Stands lo code a (Instr.branch p target).bytes) :
    (∀ taken m', p.decides m = .ok taken m' →
      d.step (m.placed (some a) base) = .ok () (m'.placed (some (if taken then target else a + 8)) base)) ∧
    (∀ f m', p.decides m = .error f m' → ∃ ip, d.step (m.placed (some a) base) =
      .error f (m'.placed ip base)) := by
  rw [step_token hc hd (Primitive.isControl_of_isBranch hp) hs.left]
  exact Primitive.run_branch ht hs.right hc hp

theorem step_string (u : StringUse) (text : String) (ha : 4 ∣ a)
    (hs : Stands lo code a (Instr.string u text).bytes) :
    d.step (m.placed (some a) base) = mapState (·.placed (some (a + (Instr.string u text).size)) base)
      (u.act (a + 8) (Text.utf8 text).length m) := by
  have hp : (Engine.stringPrimitive u).isControl = true := by cases u <;> rfl
  have hdata : Stands lo code (a + 4) (Instr.cellBytes (Text.utf8 text).length ++ (Text.utf8 text ++
      List.replicate (wholeCells (Text.utf8 text).length - (Text.utf8 text).length) 0)) := hs.right
  have hsize : a + (Instr.string u text).size = a + 4 + 4 + wholeCells (Text.utf8 text).length := by
    simp only [Instr.size]
    omega
  rw [step_token hc hd hp hs.left, hsize]
  exact Primitive.run_string hc u hdata (by omega)

/-- At the depth the run began with, a return ends it. -/
theorem step_exit (hs : Stands lo code a (Instr.plain .exit).bytes) (hret : m.ret.depth ≤ base) :
    d.step (m.placed (some a) base) = .ok () (m.placed none base) := by
  rw [step_token hc hd rfl hs]
  show Machine.leave _ = _
  rw [Machine.leave, bind_of_ok (get_apply _), if_pos (by exact hret)]
  rfl

end Dictionary

/-! ## Where the machine is -/

namespace Machine

variable {m : Machine σ} {a : Nat}

theorem getIp_of_some (h : m.ip = some a) : getIp m = .ok a m := by
  rw [getIp, bind_of_ok (get_apply m), h]
  rfl

theorem getIp_of_none (h : m.ip = none) : getIp m = .error .missingOperand m := by
  rw [getIp, bind_of_ok (get_apply m), h]
  rfl

theorem call_of_some (entry : Nat) (h : m.ip = some a) :
    call entry m = (cell a >>= fun v => rpush v >>= fun _ => setIp (some entry)) m := by
  rw [call, bind_of_ok (get_apply m), h]

theorem call_of_none (entry : Nat) (h : m.ip = none) : call entry m = start entry m := by
  rw [call, bind_of_ok (get_apply m), h]

theorem leave_of_le (h : m.ret.depth ≤ m.base) : leave m = setIp none m := by
  rw [leave, bind_of_ok (get_apply m), if_pos h]

theorem leave_of_lt (h : m.base < m.ret.depth) : leave m = (rpop >>= jumpTo) m := by
  rw [leave, bind_of_ok (get_apply m), if_neg (Nat.not_le.mpr h)]

end Machine

theorem Dictionary.step_of_some (d : Dictionary σ) {m : Machine σ} {a : Nat} (h : m.ip = some a) :
    d.step m = (Machine.onMemory (Memory.fetchCell a) >>= fun v =>
      Machine.setIp (some (a + Memory.cellSize)) >>= fun _ =>
      Machine.count v (.badToken v) >>= fun xt => d.perform xt) m := by
  rw [step, bind_of_ok (get_apply m), h]

theorem Dictionary.step_of_none (d : Dictionary σ) {m : Machine σ} (h : m.ip = none) :
    d.step m = .ok () m := by
  rw [step, bind_of_ok (get_apply m), h]
  rfl

/-! ## Runs -/

namespace Dictionary

variable (d : Dictionary σ)

theorem runFor_of_ip_none {m : Machine σ} (h : m.ip = none) (n : Nat) : d.runFor n m = .ok () m := by
  cases n with
  | zero => rfl
  | succ n => rw [runFor, bind_of_ok (get_apply m), h]; rfl

theorem runFor_succ {m : Machine σ} (h : m.ip.isSome = true) (n : Nat) :
    d.runFor (n + 1) m = (d.step >>= fun _ => d.runFor n) m := by
  rw [runFor, bind_of_ok (get_apply m), if_pos h]

theorem runFor_add (j k : Nat) : d.runFor (j + k) = (d.runFor j >>= fun _ => d.runFor k) := by
  funext m
  induction j generalizing m with
  | zero => rw [Nat.zero_add]; rfl
  | succ j ih =>
    rw [Nat.add_right_comm]
    cases h : m.ip with
    | none =>
      rw [d.runFor_of_ip_none h, bind_of_ok (d.runFor_of_ip_none h _), d.runFor_of_ip_none h]
    | some a =>
      have hs : m.ip.isSome = true := by rw [h]; rfl
      rw [d.runFor_succ hs, bind_apply, bind_apply, d.runFor_succ hs, bind_apply]
      cases d.step m with
      | ok _ m' => exact ih m'
      | error f m' => rfl

theorem runFor_one {m : Machine σ} (h : m.ip.isSome = true) : d.runFor 1 m = d.step m := by
  rw [d.runFor_succ h, bind_apply]
  cases d.step m <;> rfl

end Dictionary

end Handheld
