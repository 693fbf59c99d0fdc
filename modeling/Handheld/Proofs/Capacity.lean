/-
  Handheld.Proofs.Capacity — with more room, a program that went through goes through alike.

  No word can see how large a stack, the memory or the output is; it can only fail for want of
  room. So what succeeds in an engine succeeds in one with more room, word by word, with the same
  cells, the same dictionary, the same free end and the same output (`Roomier`), and with the
  same bytes as far as the smaller memory goes. `Transfers` says that of a computation;
  sequencing keeps it, so it holds of whole sessions once it holds of the operations on each
  part of the machine.
-/

import Handheld.Proofs.Budget

namespace Handheld

variable {ε S α β σ : Type} {size : Nat}

/-! ## From one state to a related one -/

/-- Where `x` succeeds, `y` succeeds in every related state, with the same value, and leaves a
    related one. -/
def Transfers (R : S → S → Prop) (x y : EStateM ε S α) : Prop :=
  ∀ s s' a t, R s s' → x s = .ok a t → ∃ t', y s' = .ok a t' ∧ R t t'

namespace Transfers

variable {R : S → S → Prop}

theorem pure (a : α) : Transfers R (pure a : EStateM ε S α) (pure a) := by
  intro s s' b t hR h
  cases h
  exact ⟨s', rfl, hR⟩

theorem throw (e : ε) (y : EStateM ε S α) : Transfers R (throw e) y := by
  intro s s' b t _ h
  cases h

theorem bind {x y : EStateM ε S α} {f g : α → EStateM ε S β} (hx : Transfers R x y)
    (hf : ∀ a, Transfers R (f a) (g a)) : Transfers R (x >>= f) (y >>= g) := by
  intro s s' b t hR h
  obtain ⟨a, s₁, h₁, h₂⟩ := bind_ok_iff.mp h
  obtain ⟨s₁', hy, hR₁⟩ := hx s s' a s₁ hR h₁
  obtain ⟨t', hg, hRt⟩ := hf a s₁ s₁' b t hR₁ h₂
  exact ⟨t', by rw [bind_of_ok hy, hg], hRt⟩

theorem modify {f : S → S} (h : ∀ s s', R s s' → R (f s) (f s')) :
    Transfers R (modify f : EStateM ε S Unit) (modify f) := by
  intro s s' a t hR hs
  cases hs
  exact ⟨f s', rfl, h s s' hR⟩

/-- What a computation does may depend on anything that related states have in common. -/
theorem of_common {x : EStateM ε S α} (h : ∀ s s', R s s' → ∃ y, x s = y s ∧ x s' = y s' ∧ Transfers R y y) :
    Transfers R x x := by
  intro s s' a t hR hx
  obtain ⟨y, hs, hs', hy⟩ := h s s' hR
  rw [hs] at hx
  rw [hs']
  exact hy s s' a t hR hx

/-- What related states have in common may be read off them. -/
theorem read {f : β → EStateM ε S α} (view : S → β) (hview : ∀ s s', R s s' → view s' = view s)
    (hf : ∀ b, Transfers R (f b) (f b)) :
    Transfers R (get >>= fun s => f (view s)) (get >>= fun s => f (view s)) := by
  intro s s' a t hR h
  obtain ⟨t', ht', hRt⟩ := hf (view s) s s' a t hR h
  refine ⟨t', ?_, hRt⟩
  show f (view s') s' = .ok a t'
  rw [hview s s' hR]
  exact ht'

theorem discard {x y : EStateM ε S α} (h : Transfers R x y) : Transfers R (discard x) (discard y) := by
  rw [discard_eq, discard_eq]
  exact h.bind fun _ => pure ()

end Transfers

/-! ## More room for each part -/

namespace Stack

/-- The same cells with more room. -/
structure Roomier (s s' : Stack) : Prop where
  kind : s'.kind = s.kind
  cells : s'.cells = s.cells
  capacity : s.capacity ≤ s'.capacity

theorem transfers_push (v : Cell) : Transfers Roomier (push v) (push v) := by
  intro s s' a t hR h
  unfold push at h ⊢
  rw [hR.cells]
  have hle := hR.capacity
  split at h
  · next hlt =>
    cases h
    rw [if_pos (by omega)]
    exact ⟨_, rfl, hR.kind, rfl, hle⟩
  · cases h

theorem transfers_pop : Transfers Roomier pop pop := by
  intro s s' a t hR h
  unfold pop at h ⊢
  rw [hR.cells]
  cases hback : s.cells.back? with
  | none => rw [hback] at h; cases h
  | some v =>
    rw [hback] at h
    cases h
    exact ⟨_, rfl, hR.kind, rfl, hR.capacity⟩

theorem transfers_popMany (n : Nat) : Transfers Roomier (popMany n) (popMany n) := by
  intro s s' a t hR h
  unfold popMany at h ⊢
  rw [hR.cells]
  split at h
  · next hle =>
    cases h
    rw [if_pos hle]
    exact ⟨_, rfl, hR.kind, rfl, hR.capacity⟩
  · cases h

theorem transfers_peek : Transfers Roomier peek peek := by
  intro s s' a t hR h
  unfold peek top? at h ⊢
  rw [hR.cells]
  cases hback : s.cells.back? with
  | none => rw [hback] at h; cases h
  | some v =>
    rw [hback] at h
    cases h
    exact ⟨_, rfl, hR⟩

theorem transfers_peekUnder (n : Nat) : Transfers Roomier (peekUnder n) (peekUnder n) := by
  intro s s' a t hR h
  unfold peekUnder at h ⊢
  have hunder : s'.under? n = s.under? n := by unfold under?; rw [hR.cells]
  rw [hunder]
  cases hv : s.under? n with
  | none => rw [hv] at h; cases h
  | some v =>
    rw [hv] at h
    cases h
    exact ⟨_, rfl, hR⟩

end Stack

namespace Output

/-- The same text with more room. -/
structure Roomier (o o' : Output) : Prop where
  text : o'.text = o.text
  capacity : o.capacity ≤ o'.capacity

theorem transfers_write (s : String) : Transfers Roomier (write s) (write s) := by
  intro o o' a t hR h
  unfold write at h ⊢
  rw [hR.text]
  have hle := hR.capacity
  split at h
  · next hroom =>
    cases h
    rw [if_pos (by omega)]
    exact ⟨_, rfl, rfl, hle⟩
  · cases h

theorem transfers_writePieces (pieces : List String) :
    Transfers Roomier (writePieces pieces) (writePieces pieces) := by
  induction pieces with
  | nil => exact .pure ()
  | cons piece pieces ih =>
    intro o o' a t hR h
    rw [writePieces_cons] at h ⊢
    cases hw : write piece o with
    | error e o₁ => rw [hw] at h; cases h
    | ok b o₁ =>
      rw [hw] at h
      obtain ⟨o₁', hw', hR₁⟩ := transfers_write piece o o' b o₁ hR hw
      rw [hw']
      exact ih o₁ o₁' a t hR₁ h

end Output

namespace Memory

/-- A memory of this size, and one that is the same as far as it goes and has more room behind. -/
structure Roomier (size : Nat) (m m' : Memory) : Prop where
  here : m'.here = m.here
  smaller : m.capacity = size
  larger : size ≤ m'.capacity
  bytes : ∀ a < size, m'.byteAt a = m.byteAt a

namespace Roomier

variable {m m' : Memory}

theorem inBounds (h : Roomier size m m') {a n : Nat} (hb : m.inBounds a n = true) :
    m'.inBounds a n = true := by
  have hsize := h.smaller
  have hle := h.larger
  rw [inBounds_iff] at hb ⊢
  omega

theorem slice (h : Roomier size m m') {a n : Nat} (hb : m.inBounds a n = true) :
    m'.slice a n = m.slice a n := by
  have hsize := h.smaller
  rw [inBounds_iff] at hb
  exact slice_congr fun b _ hlt => h.bytes b (by omega)

theorem setByte (h : Roomier size m m') (a : Nat) (v : UInt8) :
    Roomier size (m.setByte a v) (m'.setByte a v) where
  here := h.here
  smaller := h.smaller
  larger := h.larger
  bytes b hb := by
    rw [byteAt_setByte, byteAt_setByte, h.bytes b hb]

theorem setBytes (h : Roomier size m m') (a : Nat) (vs : List UInt8) :
    Roomier size (m.setBytes a vs) (m'.setBytes a vs) := by
  induction vs generalizing m m' a with
  | nil => exact h
  | cons v vs ih => exact ih (h.setByte a v) (a + 1)

end Roomier

/-- A guarded operation that does the same on every memory in bounds. -/
theorem transfers_guarded {a n : Nat} {op : Op α}
    (hop : ∀ m m' b t, Roomier size m m' → m.inBounds a n = true → op m = .ok b t → ∃ t',
      op m' = .ok b t' ∧ Roomier size t t') :
    Transfers (Roomier size) (guardRange a n >>= fun _ => op) (guardRange a n >>= fun _ => op) := by
  intro m m' b t hR h
  rw [guarded_eq] at h ⊢
  split at h
  · next hb =>
    rw [if_pos (hR.inBounds hb)]
    exact hop m m' b t hR hb h
  · cases h

theorem transfers_fetchByte (a : Nat) : Transfers (Roomier size) (fetchByte a) (fetchByte a) := by
  refine transfers_guarded fun m m' b t hR hb h => ?_
  cases h
  refine ⟨m', ?_, hR⟩
  have hin : a + 1 ≤ m.capacity := inBounds_iff.mp hb
  have hsize := hR.smaller
  rw [← hR.bytes a (by omega)]
  rfl

theorem transfers_fetchCell (a : Nat) : Transfers (Roomier size) (fetchCell a) (fetchCell a) := by
  refine transfers_guarded fun m m' b t hR hb h => ?_
  cases h
  refine ⟨m', ?_, hR⟩
  have hin : a + 4 ≤ m.capacity := inBounds_iff.mp hb
  have hsize := hR.smaller
  show EStateM.Result.ok (m'.cellAt a) m' = .ok (m.cellAt a) m'
  rw [cellAt, cellAt, hR.bytes a (by omega), hR.bytes (a + 1) (by omega), hR.bytes (a + 2) (by omega),
    hR.bytes (a + 3) (by omega)]

theorem transfers_fetchBytes (a n : Nat) : Transfers (Roomier size) (fetchBytes a n) (fetchBytes a n) := by
  refine transfers_guarded fun m m' b t hR hb h => ?_
  cases h
  refine ⟨m', ?_, hR⟩
  rw [← hR.slice hb]
  rfl

theorem transfers_storeByte (a : Nat) (v : UInt8) :
    Transfers (Roomier size) (storeByte a v) (storeByte a v) := by
  refine transfers_guarded fun m m' b t hR _ h => ?_
  cases h
  exact ⟨_, rfl, hR.setByte a v⟩

theorem transfers_storeCell (a : Nat) (v : Cell) :
    Transfers (Roomier size) (storeCell a v) (storeCell a v) := by
  refine transfers_guarded fun m m' b t hR _ h => ?_
  cases h
  exact ⟨_, rfl, hR.setBytes a v.toBytes⟩

theorem transfers_bump (len : Nat) : Transfers (Roomier size) (bump len) (bump len) := by
  intro m m' a t hR h
  have hsize := hR.smaller
  have hle := hR.larger
  rw [bump_eq] at h ⊢
  unfold available at h ⊢
  rw [hR.here]
  split at h
  · next hroom =>
    cases h
    rw [if_pos (by omega)]
    refine ⟨_, rfl, rfl, hsize, hle, fun b hb => ?_⟩
    show (m'.zero m.here len).byteAt b = (m.zero m.here len).byteAt b
    rw [byteAt_zero, byteAt_zero, hR.bytes b hb]
  · cases h

theorem transfers_align : Transfers (Roomier size) align align :=
  .read (f := fun here => discard (bump (aligned here - here))) Memory.here (fun _ _ h => h.here) fun _ =>
    (transfers_bump _).discard

theorem transfers_bumpCell (v : Cell) : Transfers (Roomier size) (bumpCell v) (bumpCell v) :=
  transfers_align.bind fun _ => (transfers_bump _).bind fun a => (transfers_storeCell a v).bind fun _ =>
      .pure a

theorem transfers_bumpBytes (bytes : List UInt8) :
    Transfers (Roomier size) (bumpBytes bytes) (bumpBytes bytes) :=
  (transfers_bump _).bind fun a => (Transfers.modify fun _ _ h => h.setBytes a bytes).bind fun _ => .pure a

theorem transfers_allot (n : Cell) : Transfers (Roomier size) (allot n) (allot n) := by
  unfold allot
  split
  · exact transfers_bump _
  · exact .throw _ _

end Memory

/-! ## Machines -/

/-- What a native word can touch, with more room for the output. -/
structure Surface.Roomier (s s' : Surface σ) : Prop where
  host : s'.host = s.host
  output : s.output.Roomier s'.output

namespace Machine

/-- The same machine with more room than a memory of this size. -/
structure Roomier (size : Nat) (m m' : Machine σ) : Prop where
  data : m.data.Roomier m'.data
  ret : m.ret.Roomier m'.ret
  memory : Memory.Roomier size m.memory m'.memory
  output : m.output.Roomier m'.output
  host : m'.host = m.host
  ip : m'.ip = m.ip
  base : m'.base = m.base

theorem transfers_onData {op : Stack.Op α} (hop : Transfers Stack.Roomier op op) :
    Transfers (Roomier (σ := σ) size) (onData op) (onData op) := by
  intro m m' a t hR h
  rw [onData_eq] at h ⊢
  split at h
  · next b s hs =>
    cases h
    obtain ⟨s', hs', hRs⟩ := hop _ _ _ _ hR.data hs
    rw [hs']
    exact ⟨_, rfl, { hR with data := hRs }⟩
  · cases h

theorem transfers_onReturn {op : Stack.Op α} (hop : Transfers Stack.Roomier op op) :
    Transfers (Roomier (σ := σ) size) (onReturn op) (onReturn op) := by
  intro m m' a t hR h
  rw [onReturn_eq] at h ⊢
  split at h
  · next b s hs =>
    cases h
    obtain ⟨s', hs', hRs⟩ := hop _ _ _ _ hR.ret hs
    rw [hs']
    exact ⟨_, rfl, { hR with ret := hRs }⟩
  · cases h

theorem transfers_onMemory {op : Memory.Op α} (hop : Transfers (Memory.Roomier size) op op) :
    Transfers (Roomier (σ := σ) size) (onMemory op) (onMemory op) := by
  intro m m' a t hR h
  rw [onMemory_eq] at h ⊢
  split at h
  · next b s hs =>
    cases h
    obtain ⟨s', hs', hRs⟩ := hop _ _ _ _ hR.memory hs
    rw [hs']
    exact ⟨_, rfl, { hR with memory := hRs }⟩
  · cases h

theorem transfers_onOutput {op : Output.Op α} (hop : Transfers Output.Roomier op op) :
    Transfers (Roomier (σ := σ) size) (onOutput op) (onOutput op) := by
  intro m m' a t hR h
  rw [onOutput_eq] at h ⊢
  split at h
  · next b o ho =>
    cases h
    obtain ⟨o', ho', hRo⟩ := hop _ _ _ _ hR.output ho
    rw [ho']
    exact ⟨_, rfl, { hR with output := hRo }⟩
  · cases h

theorem transfers_onSurface {op : Memory → EStateM Fault (Surface σ) α}
    (hop : ∀ s s', Memory.Roomier size s s' → Transfers Surface.Roomier (op s) (op s')) :
    Transfers (Roomier size) (onSurface op) (onSurface op) := by
  intro m m' a t hR h
  rw [onSurface_eq] at h ⊢
  split at h
  · next b s hs =>
    cases h
    obtain ⟨s', hs', hRs⟩ :=
      hop _ _ hR.memory ⟨m.host, m.output⟩ ⟨m'.host, m'.output⟩ _ _ ⟨hR.host, hR.output⟩ hs
    rw [hs']
    exact ⟨_, rfl, { hR with host := hRs.host, output := hRs.output }⟩
  · cases h

theorem transfers_address (v : Cell) : Transfers (Roomier (σ := σ) size) (address v) (address v) := by
  unfold address
  split
  · exact .pure _
  · exact .throw _ _

theorem transfers_cell (a : Nat) : Transfers (Roomier (σ := σ) size) (cell a) (cell a) := by
  unfold cell
  split
  · exact .pure _
  · exact .throw _ _

theorem transfers_count (v : Cell) (f : Fault) :
    Transfers (Roomier (σ := σ) size) (count v f) (count v f) := by
  unfold count
  split
  · exact .pure _
  · exact .throw _ _

theorem transfers_setIp (ip : Option Nat) : Transfers (Roomier (σ := σ) size) (setIp ip) (setIp ip) :=
  .modify fun _ _ h => { h with ip := rfl }

theorem transfers_getIp : Transfers (Roomier (σ := σ) size) getIp getIp := by
  refine .of_common fun m m' h => ?_
  have hip' := h.ip
  cases hip : m.ip with
  | none =>
    rw [hip] at hip'
    exact ⟨throw .missingOperand, getIp_of_none hip, getIp_of_none hip', .throw _ _⟩
  | some a =>
    rw [hip] at hip'
    exact ⟨pure a, getIp_of_some hip, getIp_of_some hip', .pure a⟩

theorem transfers_operand : Transfers (Roomier (σ := σ) size) operand operand :=
  transfers_getIp.bind fun a => (transfers_onMemory (Memory.transfers_fetchCell a)).bind fun v =>
    (transfers_setIp _).bind fun _ => .pure v

theorem transfers_jumpTo (target : Cell) :
    Transfers (Roomier (σ := σ) size) (jumpTo target) (jumpTo target) :=
  (transfers_address target).bind fun _ => transfers_setIp _

theorem transfers_leave : Transfers (Roomier (σ := σ) size) leave leave := by
  refine .of_common fun m m' h => ?_
  have hdepth : m'.ret.depth = m.ret.depth := congrArg Array.size h.ret.cells
  have hbase := h.base
  by_cases hle : m.ret.depth ≤ m.base
  · exact ⟨setIp none, leave_of_le hle, leave_of_le (by omega), transfers_setIp none⟩
  · exact ⟨rpop >>= jumpTo, leave_of_lt (by omega), leave_of_lt (by omega),
      (transfers_onReturn Stack.transfers_pop).bind fun v => transfers_jumpTo v⟩

theorem transfers_start (entry : Nat) : Transfers (Roomier (σ := σ) size) (start entry) (start entry) :=
  .modify fun _ _ h => { h with base := congrArg Array.size h.ret.cells, ip := rfl }

theorem transfers_call (entry : Nat) : Transfers (Roomier (σ := σ) size) (call entry) (call entry) := by
  refine .of_common fun m m' h => ?_
  have hip' := h.ip
  cases hip : m.ip with
  | none =>
    rw [hip] at hip'
    exact ⟨start entry, call_of_none entry hip, call_of_none entry hip', transfers_start entry⟩
  | some a =>
    rw [hip] at hip'
    exact ⟨_, call_of_some entry hip, call_of_some entry hip',
      (transfers_cell a).bind fun v => (transfers_onReturn (Stack.transfers_push v)).bind fun _ =>
      transfers_setIp _⟩

theorem transfers_closed : Act.Closed (σ := σ) fun x => Transfers (Roomier size) x x where
  pure := .pure
  bind := .bind
  divideByZero := .throw _ _
  push v := transfers_onData (Stack.transfers_push v)
  pop := transfers_onData Stack.transfers_pop
  peek := transfers_onData Stack.transfers_peek
  peekUnder n := transfers_onData (Stack.transfers_peekUnder n)
  rpeek := transfers_onReturn Stack.transfers_peek
  rpeekUnder n := transfers_onReturn (Stack.transfers_peekUnder n)
  address := transfers_address
  cell := transfers_cell
  count v := transfers_count v _
  fetchCell a := transfers_onMemory (Memory.transfers_fetchCell a)
  fetchByte a := transfers_onMemory (Memory.transfers_fetchByte a)
  fetchBytes a n := transfers_onMemory (Memory.transfers_fetchBytes a n)
  allot n := transfers_onMemory (Memory.transfers_allot n)
  bumpCell v := transfers_onMemory (Memory.transfers_bumpCell v)
  bumpBytes bytes := transfers_onMemory (Memory.transfers_bumpBytes bytes)
  write s := transfers_onOutput (Output.transfers_write s)
  writeBytes _ := transfers_onOutput (Output.transfers_write _)
  print _ := transfers_onOutput (Output.transfers_writePieces _)
  depth hf := .read (fun m => m.data.depth) (fun m m' h => by rw [Stack.depth, Stack.depth, h.data.cells]) hf
  here hf := .read (fun m => m.memory.here) (fun _ _ h => h.memory.here) hf

theorem transfers_steering : Act.Steering (σ := σ) fun x => Transfers (Roomier size) x x where
  rpush v := transfers_onReturn (Stack.transfers_push v)
  rpop := transfers_onReturn Stack.transfers_pop
  operand := transfers_operand
  jumpTo := transfers_jumpTo
  skipInline _ := transfers_getIp.bind fun a => (transfers_setIp _).bind fun _ => .pure a
  missingOperand v := transfers_count v _
  leave := transfers_leave

theorem transfers_storing : Act.Storing (σ := σ) fun x => Transfers (Roomier size) x x where
  storeCell a v := transfers_onMemory (Memory.transfers_storeCell a v)
  storeByte a v := transfers_onMemory (Memory.transfers_storeByte a v)

end Machine

/-! ## Words and runs -/

/-- A word of the host that cannot tell how much room there is. -/
def Native.Steady (f : Native σ) : Prop :=
  ∀ size args s s', Memory.Roomier size s s' → Transfers Surface.Roomier (f args s) (f args s')

def Kind.Steady : Kind σ → Prop
  | .native _ f => f.Steady
  | .hook _ => False
  | .builtin _ | .compiled _ | .constant _ => True

def Dictionary.Steady (d : Dictionary σ) : Prop := ∀ xt e, d.get? xt = some e → e.kind.Steady

open Machine in
theorem Kind.transfers_perform {k : Kind σ} (hk : k.Steady) :
    Transfers (Roomier size) k.perform k.perform := by
  cases k with
  | hook act => exact hk.elim
  | builtin p =>
    exact transfers_closed.run p (fun _ => transfers_steering) (fun _ => transfers_steering.toReturning)
        fun _ => transfers_storing
  | compiled entry => exact transfers_call entry
  | constant v => exact transfers_closed.push v
  | native arity f =>
    refine (transfers_onData (Stack.transfers_popMany arity)).bind fun args =>
        (transfers_onSurface (hk _ args)).bind fun r => ?_
    cases r with
    | none => exact .pure ()
    | some v => exact transfers_closed.push v

namespace Dictionary

open Machine

variable {d : Dictionary σ}

theorem transfers_perform (hd : d.Steady) (xt : Nat) :
    Transfers (Roomier size) (d.perform xt) (d.perform xt) := by
  unfold perform
  split
  · next e he => exact Kind.transfers_perform (hd xt e he)
  · exact .throw _ _

theorem transfers_step (hd : d.Steady) : Transfers (Roomier size) d.step d.step := by
  refine .of_common fun m m' h => ?_
  have hip' := h.ip
  cases hip : m.ip with
  | none =>
    rw [hip] at hip'
    exact ⟨pure (), d.step_of_none hip, d.step_of_none hip', .pure ()⟩
  | some a =>
    rw [hip] at hip'
    refine ⟨_, d.step_of_some hip, d.step_of_some hip', ?_⟩
    exact (transfers_onMemory (Memory.transfers_fetchCell a)).bind fun v => (transfers_setIp _).bind fun _ =>
      (transfers_count v _).bind fun xt => transfers_perform hd xt

theorem transfers_runFor (hd : d.Steady) (n : Nat) : Transfers (Roomier size) (d.runFor n) (d.runFor n) := by
  induction n with
  | zero => exact .pure ()
  | succ n ih =>
    refine .of_common fun m m' h => ?_
    have hip' := h.ip
    cases hip : m.ip with
    | none =>
      rw [hip] at hip'
      exact ⟨pure (), d.runFor_of_ip_none hip _, d.runFor_of_ip_none hip' _, .pure ()⟩
    | some a =>
      rw [hip] at hip'
      exact ⟨_, d.runFor_succ (by rw [hip]; rfl) n, d.runFor_succ (by rw [hip']; rfl) n,
          (transfers_step hd).bind fun _ => ih⟩

end Dictionary

/-! ## Sessions -/

namespace Engine

/-- The same engine with more room than a memory of this size, and with words that cannot tell. -/
structure Roomier (size : Nat) (s s' : Engine σ) : Prop where
  steady : s.dict.Steady
  dict : s'.dict = s.dict
  machine : Machine.Roomier size s.machine s'.machine
  mode : s'.mode = s.mode
  budget : s'.budget = s.budget

theorem transfers_onMachine {act : Act σ α} (ha : Transfers (Machine.Roomier size) act act) :
    Transfers (Roomier size) (onMachine act) (onMachine act) := by
  intro s s' a t hR h
  obtain ⟨m, hm, rfl⟩ := onMachine_ok h
  obtain ⟨m', hm', hRm⟩ := ha _ _ _ _ hR.machine hm
  rw [onMachine_eq, hm']
  exact ⟨_, rfl, { hR with machine := hRm }⟩

theorem transfers_onMemory {op : Memory.Op α} (ho : Transfers (Memory.Roomier size) op op) :
    Transfers (Roomier (σ := σ) size) (onMemory op) (onMemory op) :=
  transfers_onMachine (Machine.transfers_onMemory ho)

theorem interpreting_transfers (size : Nat) :
    Interpreting (σ := σ) (fun x => Transfers (Machine.Roomier size) x x) fun x =>
    Transfers (Roomier size) x x where
  pure := .pure
  bind := .bind
  here hf := .read (fun s => s.machine.memory.here) (fun _ _ h => h.machine.memory.here) hf
  sense word f hf := by
    refine .of_common fun s s' h => ?_
    obtain ⟨x, hx, heq⟩ := hf (s.dict.sense? word)
    exact ⟨x, congrFun (heq s rfl) s, congrFun (heq s' (by rw [h.dict])) s', hx⟩
  fail _ _ := .throw _ _
  cell a := transfers_onMachine (Machine.transfers_cell a)
  bumpCell v := transfers_onMemory (Memory.transfers_bumpCell v)
  bumpBytes bytes := transfers_onMemory (Memory.transfers_bumpBytes bytes)
  align := transfers_onMemory Memory.transfers_align
  closed := Machine.transfers_closed
  machine := transfers_onMachine
  constant name _ := .modify fun _ _ h =>
    { h with steady := Dictionary.All.push (P := Kind.Steady) h.steady name trivial, dict := by rw [h.dict] }

theorem compiling_transfers (size : Nat) (d : Draft) :
    Compiling (σ := σ) d 0 fun x => Transfers (Roomier size) x x where
  toReading := (interpreting_transfers size).toReading
  storeCell v _ := transfers_onMemory (Memory.transfers_storeCell _ v)
  setOpened _ := .modify fun _ _ h => { h with mode := rfl }

theorem transfers_compilePhrase (d : Draft) (p : Phrase) :
    Transfers (Roomier (σ := σ) size) (compilePhrase d p) (compilePhrase d p) := by
  refine (compiling_transfers size d).compileAny (.modify fun s s' h => ?_) (fun _ _ => Nat.zero_le _) p
  exact { h with
    steady := Dictionary.All.reveal (P := Kind.Steady) h.steady d.xt
    dict := by rw [h.dict]
    mode := rfl }

theorem transfers_openDraft (name : String) :
    Transfers (Roomier (σ := σ) size) (openDraft name) (openDraft name) := by
  have hi := interpreting_transfers (σ := σ) size
  refine hi.getHere.bind fun mark => hi.align.bind fun _ => hi.getHere.bind fun entry =>
      .modify fun s s' h => ?_
  exact { h with
    steady := Dictionary.All.pushHidden (P := Kind.Steady) h.steady name trivial
    dict := by rw [h.dict]
    mode := by rw [h.dict] }

theorem transfers_runCode (fuel entry : Nat) :
    Transfers (Roomier (σ := σ) size) (runCode fuel entry) (runCode fuel entry) := by
  intro s s' a t hR h
  have hlaunch : Machine.Roomier size (s.launched entry) (s'.launched entry) :=
    { hR.machine with ip := rfl, base := congrArg Array.size hR.machine.ret.cells }
  rw [runCode_launched] at h ⊢
  split at h
  · next hm =>
    obtain ⟨m', hm', hRm⟩ := Dictionary.transfers_runFor hR.steady _ _ _ _ _ hlaunch hm
    rw [← hR.dict, ← hR.budget] at hm'
    rw [hm']
    split at h <;> cases h
    next hip => exact ⟨_, if_neg (by rw [hRm.ip]; exact hip), { hR with machine := hRm }⟩
  · cases h

theorem transfers_execute (fuel xt : Nat) :
    Transfers (Roomier (σ := σ) size) (execute fuel xt) (execute fuel xt) := by
  refine .of_common fun s s' h => ?_
  rcases execute_cases xt s with ⟨entry, hrun⟩ | hact
  · exact ⟨_, hrun fuel s rfl rfl, hrun fuel s' h.dict h.machine.ip, transfers_runCode fuel entry⟩
  · exact ⟨_, hact fuel s rfl rfl, hact fuel s' h.dict h.machine.ip,
      transfers_onMachine (Dictionary.transfers_perform h.steady xt)⟩

theorem transfers_interpretPhrase (fuel : Nat) (p : Phrase) :
    Transfers (Roomier (σ := σ) size) (interpretPhrase fuel p) (interpretPhrase fuel p) :=
  (interpreting_transfers size).interpretAny (transfers_execute fuel) transfers_openDraft p

theorem transfers_feed (fuel : Nat) (p : Phrase) :
    Transfers (Roomier (σ := σ) size) (feed fuel p) (feed fuel p) := by
  refine .of_common fun s s' h => ?_
  have hmode' := h.mode
  cases hmode : s.mode with
  | run =>
    rw [hmode] at hmode'
    exact ⟨_, feed_of_run hmode, feed_of_run hmode', transfers_interpretPhrase fuel p⟩
  | compile d =>
    rw [hmode] at hmode'
    exact ⟨_, feed_of_compile hmode, feed_of_compile hmode', transfers_compilePhrase d p⟩

theorem transfers_feedAll (fuel : Nat) (ps : List Phrase) :
    Transfers (Roomier (σ := σ) size) (feedAll fuel ps) (feedAll fuel ps) := by
  induction ps with
  | nil => exact .pure ()
  | cons p ps ih => exact (transfers_feed fuel p).bind fun _ => ih

theorem transfers_finish : Transfers (Roomier (σ := σ) size) finish finish := by
  refine .of_common fun s s' h => ?_
  have hmode' := h.mode
  cases hmode : s.mode with
  | run =>
    rw [hmode] at hmode'
    exact ⟨_, finish_of_run hmode, finish_of_run hmode', .pure ()⟩
  | compile d =>
    rw [hmode] at hmode'
    exact ⟨_, finish_of_compile hmode, finish_of_compile hmode', .throw _ _⟩

theorem transfers_recovering {act : Session σ α} (ha : Transfers (Roomier size) act act) :
    Transfers (Roomier size) (recovering act) (recovering act) := by
  intro s s' a t hR h
  rw [recovering_eq] at h ⊢
  split at h <;> cases h
  next hs =>
    obtain ⟨t', ht', hRt⟩ := ha s s' a t hR hs
    rw [ht']
    exact ⟨t', rfl, hRt⟩

theorem transfers_interpret (fuel : Nat) (label text : String) :
    Transfers (Roomier (σ := σ) size) (interpret fuel label text) (interpret fuel label text) :=
  transfers_recovering ((transfers_feedAll fuel _).bind fun _ => transfers_finish)

theorem transfers_callAddress (fuel addr : Nat) :
    Transfers (Roomier (σ := σ) size) (callAddress fuel addr) (callAddress fuel addr) :=
  transfers_recovering (transfers_runCode fuel addr)

end Engine

end Handheld
