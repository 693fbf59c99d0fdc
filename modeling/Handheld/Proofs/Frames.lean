/-
  Handheld.Proofs.Frames — what a run of completed definitions keeps.

  While a run goes on the machine is at an instruction of a completed definition. On the return
  stack lies what was there when the run began, and on it two cells for each loop that has been
  entered and, for each call, the address of an instruction to go on at, with as many loops
  below it as stand around that instruction (`Stacked`). Every instruction keeps that, whatever
  it decides (`step_fares`), and so does a whole run (`run_fares`), as long as it stores nowhere
  into the definitions; so a run that ends leaves the return stack as it found it.
-/

import Handheld.Proofs.Flow

namespace Handheld

variable {σ : Type}

/-! ## Cells on the return stack -/

namespace Stack

/-- The stack with one more cell, be there room or not. -/
def pushed (s : Stack) (v : Cell) : Stack := { s with cells := s.cells.push v }

theorem depth_pushed (s : Stack) (v : Cell) : (s.pushed v).depth = s.depth + 1 := Array.size_push ..

theorem peek_pushed (s : Stack) (v : Cell) : peek (s.pushed v) = .ok v (s.pushed v) := by
  simp [peek, top?, pushed]

theorem push_ok {s s' : Stack} {v : Cell} (h : push v s = .ok () s') : s' = s.pushed v := by
  unfold push at h
  split at h <;> cases h
  rfl

end Stack

namespace Machine

variable {m m' : Machine σ} {s : Stack} {v : Cell}

theorem rpush_ok (h : rpush v m = .ok () m') : m' = { m with ret := m.ret.pushed v } := by
  rw [rpush, onReturn_eq] at h
  cases e : Stack.push v m.ret with
  | ok _ t => rw [e] at h; cases h; rw [Stack.push_ok e]
  | error f t => rw [e] at h; cases h

theorem push_of_room (h : m.data.depth < m.data.capacity) (v : Cell) :
    push v m = .ok () { m with data := m.data.pushed v } := by
  rw [push, onData_eq, Stack.push_of_lt h]
  rfl

theorem pop_pushed (h : m.data = s.pushed v) : pop m = .ok v { m with data := s } := by
  rw [pop, onData_eq, h, Stack.pushed, Stack.pop_push]

theorem rpush_of_room (h : m.ret.depth < m.ret.capacity) (v : Cell) :
    rpush v m = .ok () { m with ret := m.ret.pushed v } := by
  rw [rpush, onReturn_eq, Stack.push_of_lt h]
  rfl

theorem rpop_pushed (h : m.ret = s.pushed v) : rpop m = .ok v { m with ret := s } := by
  rw [rpop, onReturn_eq, h, Stack.pushed, Stack.pop_push]

theorem rpeek_pushed (h : m.ret = s.pushed v) : rpeek m = .ok v m := by
  rw [rpeek, onReturn_eq, h, Stack.peek_pushed]
  dsimp only
  rw [← h]

end Machine

/-! ## Loops and calls -/

namespace Primitive

open Machine

variable {m m' : Machine σ} {s : Stack} {limit index : Cell} {taken : Bool}

theorem advance_ok {step : Cell} (hret : m.ret = (s.pushed limit).pushed index)
    (h : advance step m = .ok taken m') :
    m'.ret = if taken then (s.pushed limit).pushed (index + step) else s := by
  rw [advance, bind_of_ok (rpop_pushed hret), bind_of_ok (rpeek_pushed rfl)] at h
  by_cases hc : crosses (index - limit) step = true
  · rw [if_pos hc] at h
    obtain ⟨_, m₁, hpop, hend⟩ := bind_ok_iff.mp h
    obtain ⟨v, hpop⟩ := discard_ok_iff.mp hpop
    rw [rpop_pushed rfl] at hpop
    cases hpop
    cases hend
    rfl
  · rw [if_neg hc] at h
    obtain ⟨_, m₁, hpush, hend⟩ := bind_ok_iff.mp h
    rw [rpush_ok hpush] at hend
    cases hend
    rfl

/-- At the end of a loop its two cells are taken away, or the index is moved. -/
theorem decides_loop_ok {p : Primitive} (hp : p = .loop ∨ p = .plusLoop)
    (hret : m.ret = (s.pushed limit).pushed index) (h : p.decides m = .ok taken m') :
    ∃ step, m'.ret = if taken then (s.pushed limit).pushed (index + step) else s := by
  rcases hp with rfl | rfl
  · exact ⟨1, advance_ok hret h⟩
  · obtain ⟨v, m₁, hpop, h⟩ := bind_ok_iff.mp h
    have hsame : m₁.ret = m.ret := sameReturn_partWise.closed.pop.of_ok hpop
    exact ⟨v, advance_ok (hsame.trans hret) h⟩

/-- A branch that ends no loop leaves the return stack. -/
theorem ret_decides {p : Primitive} (hp : p = .jump ∨ p = .jumpIfZero)
    (h : p.decides m = .ok taken m') : m'.ret = m.ret := by
  have hc := sameReturn_partWise (σ := σ) |>.closed
  rcases hp with rfl | rfl
  · cases h
    rfl
  · exact (hc.bind hc.pop fun _ => hc.pure _).of_ok h

theorem isMisread_decides (p : Primitive) : Act.Avoids Fault.isMisread (p.decides : Act σ Bool) := by
  have hdata {α : Type} (op : Stack.Op α) : Act.Avoids Fault.isMisread (onData op : Act σ α) :=
    .onData (fun _ => rfl) op
  have hret {α : Type} (op : Stack.Op α) : Act.Avoids Fault.isMisread (onReturn op : Act σ α) :=
    .onReturn (fun _ => rfl) op
  have hadvance (step : Cell) : Act.Avoids Fault.isMisread (advance step : Act σ Bool) := by
    refine .bind (hret _) fun index => .bind (hret _) fun limit => ?_
    split
    · rw [discard_eq]
      exact .bind (.bind (hret _) fun _ => .pure ()) fun _ => .pure false
    · exact .bind (hret _) fun _ => .pure true
  cases p
  case jumpIfZero => exact .bind (hdata _) fun _ => .pure _
  case loop => exact hadvance 1
  case plusLoop => exact .bind (hdata _) fun v => hadvance v
  all_goals exact .pure _

theorem enterLoop_ok (h : enterLoop.run m = .ok () m') :
    m'.memory = m.memory ∧ ∃ limit start, m'.ret = (m.ret.pushed limit).pushed start := by
  obtain ⟨start, m₁, h₁, h⟩ := bind_ok_iff.mp h
  obtain ⟨limit, m₂, h₂, h⟩ := bind_ok_iff.mp h
  obtain ⟨_, m₃, h₃, h₄⟩ := bind_ok_iff.mp h
  have hret : m₂.ret = m.ret :=
    (sameReturn_partWise.closed.pop.of_ok h₂).trans (sameReturn_partWise.closed.pop.of_ok h₁)
  have hmem : m₂.memory = m.memory := (sameMemory_pop.of_ok h₂).trans (sameMemory_pop.of_ok h₁)
  rw [rpush_ok h₄, rpush_ok h₃, ← hret]
  exact ⟨hmem, limit, start, rfl⟩

theorem isMisread_enterLoop : Act.Avoids Fault.isMisread (enterLoop.run : Act σ Unit) :=
  .bind (.onData (fun _ => rfl) _) fun _ => .bind (.onData (fun _ => rfl) _) fun _ =>
    .bind (.onReturn (fun _ => rfl) _) fun _ => .onReturn (fun _ => rfl) _

end Primitive

namespace Machine

variable {m : Machine σ} {a base : Nat}

theorem cell_of_le (ha : a ≤ Cell.maxNat) : (cell a : Act σ Cell) = pure (Int32.ofNat a) := by
  unfold cell
  rw [Memory.cellOfAddr_of_le ha]

/-- A call keeps the address to go on at, if there is room for it. -/
theorem call_at (m : Machine σ) (entry base : Nat) (ha : a ≤ Cell.maxNat) :
    (∀ m', call entry (m.placed (some a) base) = .ok () m' →
      m' = ({ m with ret := m.ret.pushed (Int32.ofNat a) } : Machine σ).placed (some entry) base) ∧
    (∀ f m', call entry (m.placed (some a) base) = .error f m' → f.isMisread = false ∧
      m'.memory = m.memory) := by
  have hcall : call entry (m.placed (some a) base) =
      (rpush (Int32.ofNat a) >>= fun _ => setIp (some entry)) (m.placed (some a) base) := by
    rw [call, bind_of_ok (get_apply _)]
    show (cell a >>= _) _ = _
    rw [cell_of_le ha]
    rfl
  rw [hcall]
  refine ⟨fun m' e => ?_, fun f m' e => ?_⟩
  · obtain ⟨_, m₁, hpush, hip⟩ := bind_ok_iff.mp e
    rw [rpush_ok hpush] at hip
    cases hip
    rfl
  · have hmem := returning_keeps (R := fun m m' : Machine σ => m'.memory = m.memory) fun _ _ _ => rfl
    rcases bind_error_iff.mp e with e | ⟨_, m₁, -, e⟩
    · have hsame : m'.memory = (m.placed (some a) base).memory := (hmem.rpush _).of_error e
      exact ⟨Act.Avoids.onReturn (fun _ => rfl) _ _ _ _ e, hsame⟩
    · cases e

/-- A call for which there is room. -/
theorem call_of_lt (m : Machine σ) (entry base : Nat) (ha : a ≤ Cell.maxNat)
    (hroom : m.ret.depth < m.ret.capacity) :
    call entry (m.placed (some a) base) =
      .ok () (({ m with ret := m.ret.pushed (Int32.ofNat a) } : Machine σ).placed (some entry) base) := by
  have hpush : rpush (Int32.ofNat a) (m.placed (some a) base) =
      .ok () (({ m with ret := m.ret.pushed (Int32.ofNat a) } : Machine σ).placed (some a) base) := by
    rw [rpush, onReturn_eq, ret_placed, Stack.push_of_lt hroom]
    rfl
  rw [call_of_some entry rfl, cell_of_le ha, pure_bind, bind_of_ok hpush]
  rfl

/-- A call for which there is none. -/
theorem call_of_le (m : Machine σ) (entry base : Nat) (ha : a ≤ Cell.maxNat)
    (hroom : m.ret.capacity ≤ m.ret.depth) :
    call entry (m.placed (some a) base) =
      .error (.stack (.overflow m.ret.kind)) (m.placed (some a) base) := by
  have hpush : rpush (Int32.ofNat a) (m.placed (some a) base) =
      .error (.stack (.overflow m.ret.kind)) (m.placed (some a) base) := by
    rw [rpush, onReturn_eq, ret_placed, Stack.push_of_le hroom]
    rfl
  rw [call_of_some entry rfl, cell_of_le ha, pure_bind, bind_of_error hpush]

/-- A return goes on at the address on top. -/
theorem leave_pushed {s : Stack} (hret : m.ret = s.pushed (Int32.ofNat a)) (ha : a ≤ Cell.maxNat)
    (hbase : base ≤ s.depth) (ip : Option Nat) :
    leave (m.placed ip base) = .ok () (({ m with ret := s } : Machine σ).placed (some a) base) := by
  have hdepth : ¬ (m.placed ip base).ret.depth ≤ base := by
    rw [ret_placed, hret, Stack.depth_pushed]
    omega
  rw [leave, bind_of_ok (get_apply _)]
  show (if (m.placed ip base).ret.depth ≤ base then _ else _ : Act σ Unit) _ = _
  rw [if_neg hdepth, bind_of_ok (rpop_pushed (m := m.placed ip base) hret)]
  exact jumpTo_ofNat (m := { m with ret := s }) ha ip base

end Machine

/-! ## Strings -/

/-- A string that stands in memory is not missed. -/
theorem StringUse.isMisread_act {u : StringUse} {a n : Nat} {m m' : Machine σ} {f : Fault}
    (hin : a + n ≤ m.memory.capacity) (hmax : a ≤ Cell.maxNat) (h : u.act a n m = .error f m') :
    f.isMisread = false := by
  cases u with
  | push =>
    rw [show (StringUse.push.act a n : Act σ Unit) =
      (Machine.cell a >>= fun v => Machine.push v >>= fun _ => Machine.push (Int32.ofNat n)) from rfl,
      Machine.cell_of_le hmax] at h
    have hpush (v : Cell) : Act.Avoids Fault.isMisread (Machine.push v : Act σ Unit) :=
      .onData (fun _ => rfl) _
    exact Act.Avoids.bind (hpush _) (fun _ => hpush _) m f m' h
  | print =>
    have hfetch : Machine.onMemory (Memory.fetchBytes a n) m = .ok (m.memory.slice a n) m := by
      rw [Machine.onMemory_eq, Memory.fetchBytes_eq, if_pos (Memory.inBounds_iff.mpr hin)]
    rw [show (StringUse.print.act a n : Act σ Unit) = Primitive.printBytes a n from rfl,
      Primitive.printBytes_eq, bind_of_ok hfetch] at h
    exact Act.Avoids.onOutput (fun _ => rfl) _ m f m' h

/-! ## Words -/

namespace Kind

variable {k : Kind σ} {m m' : Machine σ} {f : Fault}

/-- A tame word leaves the return stack as it finds it. -/
theorem ret_of_tame (ho : k.isOrdinary = true) (ht : k.isTame = true) (h : k.perform m = .ok () m') :
    m'.ret = m.ret := by
  have hs := Machine.sameReturn_partWise (σ := σ)
  cases k with
  | hook | compiled => cases ho
  | constant v => exact (hs.closed.push v).of_ok h
  | native arity g =>
    refine (Machine.keeps_callNative hs.toShallow (fun m args => ?_) arity).of_ok h
    rw [Machine.stateAfter_onSurface]
  | builtin p =>
    simp only [isTame, Bool.and_eq_true, Bool.not_eq_true'] at ht
    exact (Primitive.ret_run ht.1 ht.2).of_ok h

/-- Only the host's own words can stray, by a fault of their own. -/
theorem native_of_isStray (ho : k.isOrdinary = true) (hf : f.isStray = true) (h : k.perform m = .error f m') :
    ∃ arity g args s, k = .native arity g ∧ g args m.memory ⟨m.host, m.output⟩ = .error f s := by
  have hdata {α : Type} (op : Stack.Op α) : Act.Avoids Fault.isStray (Machine.onData op : Act σ α) :=
    .onData (fun _ => rfl) op
  have hpush (v : Cell) : Act.Avoids Fault.isStray (Machine.push v : Act σ Unit) := hdata _
  cases k with
  | hook | compiled => cases ho
  | constant v => simp [hpush v m f m' h] at hf
  | builtin p => simp [Act.Avoids.isStray_run (by simpa [isOrdinary] using ho) m f m' h] at hf
  | native arity g =>
    rcases bind_error_iff.mp h with h | ⟨args, m₁, hargs, h⟩
    · simp [hdata _ m f m' h] at hf
    have hm₁ : m₁ = { m with data := stateAfter (Stack.popMany arity) m.data } := by
      rw [← Machine.stateAfter_onData, stateAfter_ok hargs]
    rcases bind_error_iff.mp h with h | ⟨r, m₂, -, h⟩
    · rw [Machine.onSurface_eq, hm₁] at h
      cases e : g args m.memory ⟨m.host, m.output⟩ with
      | ok r s => rw [e] at h; cases h
      | error f' s => rw [e] at h; cases h; exact ⟨arity, g, args, s, rfl, e⟩
    · cases r with
      | none => cases h
      | some v => simp [hpush v m₂ f m' h] at hf

end Kind

/-! ## Runs of completed definitions -/

/-- An instruction of one of the definitions begins at `a`, in that many loops. -/
def Point (defs : List Code) (a loops : Nat) : Prop := ∃ c ∈ defs, ∃ s ∈ c.sites, s.addr = a ∧ s.loops = loops

/-- What lies on the return stack of a run that found `base` there, at an instruction in that
    many loops: for each loop its limit and its index, for each call the address to go on at. -/
inductive Stacked (defs : List Code) (base : Stack) : Nat → Stack → Prop
  | bottom : Stacked defs base 0 base
  | loop {loops : Nat} {s : Stack} (limit index : Cell) : Stacked defs base loops s →
      Stacked defs base (loops + 1) ((s.pushed limit).pushed index)
  | call {loops a : Nat} {s : Stack} : Stacked defs base loops s → Point defs a loops →
      Stacked defs base 0 (s.pushed (Int32.ofNat a))

theorem Stacked.depth_le {defs : List Code} {base s : Stack} {loops : Nat} (h : Stacked defs base loops s) :
    base.depth ≤ s.depth := by
  induction h with
  | bottom => exact Nat.le_refl _
  | loop limit index _ ih => simp only [Stack.depth_pushed]; omega
  | call _ _ ih => simp only [Stack.depth_pushed]; omega

/-- Whatever a branch decides, it leads where the return stack is as it should be. -/
theorem Stacked.branch {defs : List Code} {base : Stack} {p : Primitive} {target a loops : Nat}
    {m m' : Machine σ} {taken : Bool} (hst : Stacked defs base loops m.ret) (hp : p.isBranch = true)
    (hflow : (Instr.branch p target).Flows (Point defs) a loops) (h : p.decides m = .ok taken m') :
    ∃ loops', Point defs (if taken then target else a + 8) loops' ∧ Stacked defs base loops' m'.ret := by
  have hloop (hp : p = .loop ∨ p = .plusLoop)
      (hflow : ∃ outer, loops = outer + 1 ∧ Point defs target loops ∧ Point defs (a + 8) outer) :
      ∃ loops', Point defs (if taken then target else a + 8) loops' ∧ Stacked defs base loops' m'.ret := by
    obtain ⟨outer, rfl, htarget, hafter⟩ := hflow
    -- With a loop around the branch, the two cells on top can only be that loop's.
    generalize hret : m.ret = s at hst
    cases hst with
    | loop limit index hst =>
      obtain ⟨step, hret'⟩ := Primitive.decides_loop_ok hp hret h
      rw [hret']
      cases taken with
      | true => exact ⟨outer + 1, htarget, .loop limit _ hst⟩
      | false => exact ⟨outer, hafter, hst⟩
  cases p <;> cases hp
  case jump =>
    cases h
    exact ⟨loops, hflow, hst⟩
  case jumpIfZero =>
    rw [Primitive.ret_decides (.inr rfl) h]
    cases taken with
    | true => exact ⟨loops, hflow.1, hst⟩
    | false => exact ⟨loops, hflow.2, hst⟩
  case loop => exact hloop (.inl rfl) hflow
  case plusLoop => exact hloop (.inr rfl) hflow

namespace Dictionary

/-- The code of every compiled word is that of one of the definitions, and is where it was
    laid down. -/
structure Coded (d : Dictionary σ) (defs : List Code) (m : Memory) : Prop where
  rooted : d.Rooted
  sound : ∀ c ∈ defs, c.Sound d
  carries : ∀ c ∈ defs, m.Carries c.entry c.bytes
  words : ∀ xt e entry, d.get? xt = some e → e.kind = .compiled entry → ∃ c ∈ defs, c.entry = entry

theorem Coded.grows {d : Dictionary σ} {defs : List Code} {m m' : Memory} (h : d.Coded defs m)
    (hg : m.Grows m') : d.Coded defs m' :=
  { h with carries := fun c hc => (h.carries c hc).grows hg }

theorem Coded.le_maxNat {d : Dictionary σ} {defs : List Code} {m : Memory} {a loops : Nat}
    (h : d.Coded defs m) (hp : Point defs a loops) : a ≤ Cell.maxNat := by
  obtain ⟨c, hc, s, hs, rfl, -⟩ := hp
  have hin := ((h.carries c hc).part (c.stands hs)).2
  have := (h.carries c hc).valid.here_le_maxNat
  omega

/-- A word that stores nowhere into the definitions leaves them where they were. -/
theorem Coded.perform {d : Dictionary σ} {defs : List Code} {m m' : Machine σ} {k : Kind σ}
    (h : d.Coded defs m.memory)
    (ho : k.isOrdinary = true) (hs : ∀ w ∈ k.stores m, ∀ c ∈ defs, Apart c.entry c.stop w)
    (hk : k.perform m = .ok () m') :
    d.Coded defs m'.memory :=
  { h with carries := fun c hc =>
   Kind.carries_perform ho (h.carries c hc) (fun w hw => c.stop_eq ▸ hs w hw c hc) hk }

/-- The word whose token is at the instruction pointer. -/
def dispatched? (d : Dictionary σ) (m : Machine σ) : Option (Entry σ) :=
  (m.ip.bind fun a => (m.memory.cellAt a).toNat?).bind d.get?

/-- The store that the next step makes when it succeeds. -/
def stepStores (d : Dictionary σ) (m : Machine σ) : List (Nat × Nat) :=
  match d.dispatched? m with
  | some e => e.kind.stores m
  | none => []

/-- The fault is the own fault of the word that the next step runs, and no fault of reading
    code; where it looks like straying, it is the host that raised it. -/
def OwnFault (d : Dictionary σ) (m : Machine σ) (f : Fault) : Prop :=
  ∃ e, d.dispatched? m = some e ∧ e.kind.isOrdinary = true ∧
    (f.isStray = true → ∃ arity g args s, e.kind = .native arity g ∧
      g args m.memory ⟨m.host, m.output⟩ = .error f s)

theorem dispatched?_at {d : Dictionary σ} {m : Machine σ} {lo a base xt : Nat} {code : List UInt8}
    (hc : m.memory.Carries lo code) (hx : xt ≤ Cell.maxNat) (hs : Stands lo code a (Instr.cellBytes xt)) :
    d.dispatched? (m.placed (some a) base) = d.get? xt := by
  have hcell := Memory.Holds.cellAt (hc.part hs).1
  unfold dispatched?
  rw [Machine.ip_placed, Option.bind_some, Machine.memory_placed, hcell, Cell.toNat?_ofNat hx,
    Option.bind_some]

end Dictionary

/-- A run that found `base` on the return stack is at an instruction of a completed definition,
    or is over and has left the return stack as it was. -/
structure Running (d : Dictionary σ) (defs : List Code) (base : Stack) (m : Machine σ) : Prop where
  coded : d.Coded defs m.memory
  depth : m.base = base.depth
  place : match m.ip with
    | some a => ∃ loops, Point defs a loops ∧ Stacked defs base loops m.ret
    | none => m.ret = base

/-- How a step from `m` ends: the run goes on as it should, or fails with a word's own fault. -/
def Fares (d : Dictionary σ) (defs : List Code) (base : Stack) (m : Machine σ) :
    EStateM.Result Fault (Machine σ) Unit → Prop
  | .ok _ m' => Running d defs base m'
  | .error f m' => d.Coded defs m'.memory ∧ (f.isMisread = true → d.OwnFault m f)

section

variable {d : Dictionary σ} {defs : List Code} {base : Stack} {m n : Machine σ}

/-- An act that leaves the return stack alone and misreads nothing, on the way to `next`. -/
theorem Fares.of_act {x : Act σ Unit} {next loops : Nat} (hcoded : d.Coded defs m.memory)
    (hgrows : Keeps (fun m m' : Machine σ => m.memory.Grows m'.memory) x)
    (hret : Keeps (fun m m' : Machine σ => m'.ret = m.ret) x)
    (hfault : ∀ f m', x m = .error f m' → f.isMisread = false)
    (hpoint : Point defs next loops) (hst : Stacked defs base loops m.ret) :
    Fares d defs base n (mapState (·.placed (some next) base.depth) (x m)) := by
  rcases e : x m with ⟨_, m'⟩ | ⟨f, m'⟩
  · have hmemory : m.memory.Grows m'.memory := hgrows.of_ok e
    refine ⟨hcoded.grows hmemory, rfl, loops, hpoint, ?_⟩
    rw [Machine.ret_placed, show m'.ret = m.ret from hret.of_ok e]
    exact hst
  · have hmemory : m.memory.Grows m'.memory := hgrows.of_error e
    exact ⟨hcoded.grows hmemory, fun hf => by rw [hfault f m' e] at hf; cases hf⟩

variable {lo a loops : Nat} {code : List UInt8} (hcoded : d.Coded defs m.memory)
    (hcode : m.memory.Carries lo code)

include hcoded hcode

theorem Fares.call {xt entry : Nat} {e : Entry σ} (hx : xt ≤ Cell.maxNat) (he : d.get? xt = some e)
    (hk : e.kind = .compiled entry) (hs : Stands lo code a (Instr.word xt).bytes)
    (hnext : Point defs (a + 4) loops)
    (hst : Stacked defs base loops m.ret) : Fares d defs base n (d.step (m.placed (some a) base.depth)) := by
  obtain ⟨hok, herror⟩ := Machine.call_at m entry base.depth (hcoded.le_maxNat hnext)
  rw [Dictionary.step_at hcode hx hs he, hk]
  rcases hcall : Machine.call entry (m.placed (some (a + 4)) base.depth) with ⟨_, m'⟩ | ⟨f, m'⟩
  · obtain ⟨c, hc, rfl⟩ := hcoded.words xt e entry he hk
    have hentry : Point defs c.entry 0 := c.enters fun s hs => ⟨c, hc, s, hs, rfl, rfl⟩
    simp only [Kind.perform, hcall, hok m' hcall]
    exact ⟨hcoded, rfl, 0, hentry, .call hst hnext⟩
  · obtain ⟨hf, hm⟩ := herror f m' hcall
    simp only [Kind.perform, hcall]
    exact ⟨hm ▸ hcoded, fun h => by rw [hf] at h; cases h⟩

theorem Fares.enterLoop (hs : Stands lo code a (Instr.plain .enterLoop).bytes)
    (hnext : Point defs (a + 4) (loops + 1))
    (hst : Stacked defs base loops m.ret) : Fares d defs base n (d.step (m.placed (some a) base.depth)) := by
  rw [Dictionary.step_enterLoop hcode hcoded.rooted hs]
  rcases e : Primitive.enterLoop.run m with ⟨_, m'⟩ | ⟨f, m'⟩
  · obtain ⟨hmem, limit, start, hret⟩ := Primitive.enterLoop_ok e
    refine ⟨hmem ▸ hcoded, rfl, loops + 1, hnext, ?_⟩
    rw [Machine.ret_placed, hret]
    exact .loop limit start hst
  · have hmemory : m.memory.Grows m'.memory := (Primitive.grows_run rfl).of_error e
    exact ⟨hcoded.grows hmemory, fun h => by rw [Primitive.isMisread_enterLoop m f m' e] at h; cases h⟩

theorem Fares.exit (hs : Stands lo code a (Instr.plain .exit).bytes) (hst : Stacked defs base 0 m.ret) :
    Fares d defs base n (d.step (m.placed (some a) base.depth)) := by
  generalize hret : m.ret = s at hst
  cases hst with
  | bottom =>
    rw [Dictionary.step_exit hcode hcoded.rooted hs (Nat.le_of_eq (by rw [hret]))]
    exact ⟨hcoded, rfl, hret⟩
  | call hst hpoint =>
    rw [Dictionary.step_token hcode hcoded.rooted rfl hs]
    show Fares d defs base n (Machine.leave _)
    rw [Machine.leave_pushed hret (hcoded.le_maxNat hpoint) hst.depth_le]
    exact ⟨hcoded, rfl, _, hpoint, hst⟩

theorem Fares.branch {p : Primitive} {target : Nat} (hp : p.isBranch = true) (ht : target ≤ Cell.maxNat)
    (hs : Stands lo code a (Instr.branch p target).bytes)
    (hflow : (Instr.branch p target).Flows (Point defs) a loops)
    (hst : Stacked defs base loops m.ret) : Fares d defs base n (d.step (m.placed (some a) base.depth)) := by
  rcases e : p.decides m with ⟨taken, m'⟩ | ⟨f, m'⟩
  · have hmemory : m.memory.Grows m'.memory := (Primitive.grows_decides p).of_ok e
    have hplace := hst.branch hp hflow e
    rw [(Dictionary.step_branch hcode hcoded.rooted hp ht hs).1 taken m' e]
    exact ⟨hcoded.grows hmemory, rfl, hplace⟩
  · have hmemory : m.memory.Grows m'.memory := (Primitive.grows_decides p).of_error e
    have hstep : ∃ ip, d.step (m.placed (some a) base.depth) = .error f (m'.placed ip base.depth) :=
      (Dictionary.step_branch hcode hcoded.rooted hp ht hs).2 f m' e
    obtain ⟨ip, hstep⟩ := hstep
    rw [hstep]
    exact ⟨hcoded.grows hmemory, fun h => by rw [p.isMisread_decides m f m' e] at h; cases h⟩

/-- A word that acts on its own, and stores nowhere into code. -/
theorem Fares.ordinary {xt : Nat} {e : Entry σ} (hx : xt ≤ Cell.maxNat) (he : d.get? xt = some e)
    (ho : e.kind.isOrdinary = true) (ht : e.kind.isTame = true) (hs : Stands lo code a (Instr.word xt).bytes)
    (hnext : Point defs (a + 4) loops) (hst : Stacked defs base loops m.ret)
    (hstores : ∀ m', d.step (m.placed (some a) base.depth) = .ok () m' →
      ∀ w ∈ d.stepStores (m.placed (some a) base.depth), ∀ c ∈ defs, Apart c.entry c.stop w) :
    Fares d defs base (m.placed (some a) base.depth) (d.step (m.placed (some a) base.depth)) := by
  have hdispatched : d.dispatched? (m.placed (some a) base.depth) = some e :=
    (Dictionary.dispatched?_at hcode hx hs).trans he
  have hstep : d.step (m.placed (some a) base.depth) =
      mapState (·.placed (some (a + 4)) base.depth) (e.kind.perform m) :=
    Dictionary.step_ordinary hcode hx he ho hs
  rw [hstep] at hstores ⊢
  rcases h : e.kind.perform m with ⟨_, m'⟩ | ⟨f, m'⟩
  · rw [h] at hstores
    have hapart := hstores _ rfl
    rw [Dictionary.stepStores, hdispatched] at hapart
    have hcoded' : d.Coded defs m'.memory := hcoded.perform ho hapart h
    refine ⟨hcoded', rfl, loops, hnext, ?_⟩
    rw [Machine.ret_placed, Kind.ret_of_tame ho ht h]
    exact hst
  · have hmemory : m.memory.Grows m'.memory := Kind.grows_of_error ho h
    have hown (hf : f.isStray = true) := Kind.native_of_isStray ho hf h
    exact ⟨hcoded.grows hmemory, fun _ => ⟨e, hdispatched, ho, hown⟩⟩

end

/-- Every instruction of a completed definition keeps the return stack in order. -/
theorem step_site {d : Dictionary σ} {defs : List Code} {base : Stack} {m : Machine σ}
    (hcoded : d.Coded defs m.memory)
    {c : Code} (hc : c ∈ defs) {s : Site} (hs : s ∈ c.sites) (hst : Stacked defs base s.loops m.ret)
    (hstores : ∀ m', d.step (m.placed (some s.addr) base.depth) = .ok () m' →
      ∀ w ∈ d.stepStores (m.placed (some s.addr) base.depth), ∀ c ∈ defs, Apart c.entry c.stop w) :
    Fares d defs base (m.placed (some s.addr) base.depth) (d.step (m.placed (some s.addr) base.depth)) := by
  have hcode := hcoded.carries c hc
  have hstands := c.stands hs
  have hknown := (hcoded.sound c hc).known hcode hs
  have haligned := (hcoded.sound c hc).dvd_addr hs
  have hflow : s.instr.Flows (Point defs) s.addr s.loops :=
    (hcoded.sound c hc).flows (fun t ht => ⟨c, hc, t, ht, rfl, rfl⟩) hs
  have hgrows := Machine.growing_partWise (σ := σ)
  have hret := Machine.sameReturn_partWise (σ := σ)
  obtain ⟨a, loops, i⟩ := s
  cases i with
  | word xt =>
    obtain ⟨hx, e, he, ht⟩ := hknown
    by_cases ho : e.kind.isOrdinary = true
    · exact .ordinary hcoded hcode hx he ho ht hstands hflow hst hstores
    · obtain ⟨entry, hk⟩ : ∃ entry, e.kind = .compiled entry := by
        cases hk : e.kind <;> simp_all [Kind.isTame, Kind.isOrdinary]
      exact .call hcoded hcode hx he hk hstands hflow hst
  | plain p =>
    rcases hknown with rfl | rfl
    · exact .enterLoop hcoded hcode hstands hflow hst
    · cases hflow
      exact .exit hcoded hcode hstands hst
  | literal v =>
    have hpush : Act.Avoids Fault.isMisread (Machine.push v : Act σ Unit) := .onData (fun _ => rfl) _
    rw [Dictionary.step_literal hcode hcoded.rooted hstands]
    exact .of_act hcoded (hgrows.closed.push v) (hret.closed.push v) (hpush m) hflow hst
  | branch p target => exact .branch hcoded hcode hknown.1 hknown.2 hstands hflow hst
  | string u text =>
    have hin := (hcode.part hstands).2
    have hhere := hcode.valid.here_le
    have hmax := hcode.valid.here_le_maxNat
    rw [Instr.length_bytes, Instr.size, wholeCells] at hin
    rw [Dictionary.step_string hcode hcoded.rooted u text haligned hstands]
    exact .of_act hcoded (u.act_of_closed hgrows.closed _ _) (u.act_of_closed hret.closed _ _)
      (fun f m' h => StringUse.isMisread_act (by omega) (by omega) h) hflow hst

/-- What one step of a run keeps. -/
theorem step_fares {d : Dictionary σ} {defs : List Code} {base : Stack} {m : Machine σ}
    (hrun : Running d defs base m) (hip : m.ip.isSome = true)
    (hstores : ∀ m', d.step m = .ok () m' → ∀ w ∈ d.stepStores m, ∀ c ∈ defs, Apart c.entry c.stop w) :
    Fares d defs base m (d.step m) := by
  obtain ⟨hcoded, hdepth, hplace⟩ := hrun
  obtain ⟨a, ha⟩ := Option.isSome_iff_exists.mp hip
  rw [ha] at hplace
  obtain ⟨loops, ⟨c, hc, s, hs, rfl, rfl⟩, hst⟩ := hplace
  have hm : m.placed (some s.addr) base.depth = m := by rw [← ha, ← hdepth]; rfl
  have := step_site hcoded hc hs hst (by rw [hm]; exact hstores)
  rwa [hm] at this

/-! ## Whole runs -/

/-- Where the code of a definition stands. -/
structure Region where
  entry : Nat
  stop : Nat
  deriving DecidableEq

def Code.region (c : Code) : Region := ⟨c.entry, c.stop⟩

instance (lo hi : Nat) (w : Nat × Nat) : Decidable (Apart lo hi w) := inferInstanceAs (Decidable (_ ∨ _))

/-- None of the stores reaches into code. -/
def clear (codes : List Region) (stores : List (Nat × Nat)) : Bool :=
  stores.all fun w => codes.all fun c => decide (Apart c.entry c.stop w)

theorem apart_of_clear {defs : List Code} {stores : List (Nat × Nat)}
    (h : clear (defs.map Code.region) stores = true) :
    ∀ w ∈ stores, ∀ c ∈ defs, Apart c.entry c.stop w := by
  intro w hw c hc
  have hall := List.all_eq_true.mp (List.all_eq_true.mp h w hw) c.region (List.mem_map_of_mem hc)
  exact of_decide_eq_true hall

/-- No store of the first `n` steps of the run reaches into code. -/
def Dictionary.spares (d : Dictionary σ) (codes : List Region) : Nat → Machine σ → Bool
  | 0, _ => true
  | n + 1, m =>
    match m.ip, d.step m with
    | some _, .ok _ m' => clear codes (d.stepStores m) && d.spares codes n m'
    | _, _ => true

/-- A run that stores nowhere into code stays in completed definitions, and fails with nothing
    but the own fault of a word it runs. -/
theorem run_fares {d : Dictionary σ} {defs : List Code} {base : Stack} {m : Machine σ} {n k : Nat}
    (hrun : Running d defs base m) (hs : d.spares (defs.map Code.region) n m = true) (hk : k ≤ n) :
    match d.runFor k m with
    | .ok _ m' => Running d defs base m'
    | .error f m' => d.Coded defs m'.memory ∧
        ∃ j m₁, j < k ∧ d.runFor j m = .ok () m₁ ∧ (f.isMisread = true → d.OwnFault m₁ f) := by
  -- From the first step on: what is left of the run has fewer steps and spares the same code.
  induction k generalizing m n with
  | zero => exact hrun
  | succ k ih =>
    obtain ⟨n, rfl⟩ : ∃ n', n = n' + 1 := ⟨n - 1, by omega⟩
    cases hip : m.ip with
    | none =>
      rw [d.runFor_of_ip_none hip]
      exact hrun
    | some a =>
      have hsome : m.ip.isSome = true := by rw [hip]; rfl
      rw [Dictionary.spares, hip] at hs
      have hfares : Fares d defs base m (d.step m) := by
        refine step_fares hrun hsome fun m' h => ?_
        rw [h] at hs
        exact apart_of_clear (Bool.and_eq_true_iff.mp hs).1
      rw [d.runFor_succ hsome]
      rcases h : d.step m with ⟨_, m'⟩ | ⟨f, m'⟩
      · rw [h] at hs hfares
        have hnext := ih hfares (Bool.and_eq_true_iff.mp hs).2 (by omega)
        rw [bind_of_ok h]
        rcases e : d.runFor k m' with ⟨_, m''⟩ | ⟨f, m''⟩
        · rw [e] at hnext
          exact hnext
        · rw [e] at hnext
          obtain ⟨hcoded, j, m₁, hj, hrun, hown⟩ := hnext
          refine ⟨hcoded, j + 1, m₁, by omega, ?_, hown⟩
          rw [d.runFor_succ hsome, bind_of_ok h]
          exact hrun
      · rw [h] at hfares
        rw [bind_of_error h]
        exact ⟨hfares.1, 0, m, by omega, rfl, hfares.2⟩

end Handheld
