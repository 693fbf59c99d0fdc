/-
  Handheld.Proofs.Effects — what instructions can do to a machine, and what they cannot.

  Four facts, each from `Act.Closed.run`. Whatever is run, each part of the machine goes on as
  its own operations let it (`closed_keeps`). A word of the program acts the same wherever the
  machine is, and leaves it there (`Act.Placeless`). Only the compiler's own instructions can
  stray, by a bad token or a missing operand (`Act.Avoids`). A native word is the host's, and
  touches the stack, the output and the host's own state alone.
-/

import Handheld.Proofs.Instructions

namespace Handheld

variable {σ α β : Type}

/-! ## Stacks and output -/

namespace Stack

/-- What any operation leaves of a stack. -/
structure Moves (s s' : Stack) : Prop where
  kind : s'.kind = s.kind
  capacity : s'.capacity = s.capacity
  inside : s.depth ≤ s.capacity → s'.depth ≤ s'.capacity

theorem Moves.ordered : Ordered Moves where
  refl _ := ⟨rfl, rfl, id⟩
  trans h g := ⟨g.kind.trans h.kind, g.capacity.trans h.capacity, fun hi => g.inside (h.inside hi)⟩

theorem keeps_push (v : Cell) : Keeps Moves (push v) := by
  intro s
  by_cases h : s.cells.size < s.capacity
  · rw [stateAfter_ok (push_of_lt h v)]
    exact ⟨rfl, rfl, fun _ => by simp only [depth, Array.size_push]; omega⟩
  · rw [stateAfter_error (push_of_le (Nat.not_lt.mp h) v)]
    exact Moves.ordered.refl s

theorem keeps_pop : Keeps Moves pop := by
  intro s
  rcases h : s.cells.back? with - | v
  · rw [stateAfter_error (show pop s = .error (.underflow s.kind) s by rw [pop, h])]
    exact Moves.ordered.refl s
  · rw [stateAfter_ok (show pop s = .ok v { s with cells := s.cells.pop } by rw [pop, h])]
    refine ⟨rfl, rfl, fun hi => ?_⟩
    simp only [depth, Array.size_pop] at hi ⊢
    omega

theorem keeps_popMany (n : Nat) : Keeps Moves (popMany n) := by
  intro s
  by_cases h : n ≤ s.cells.size
  · rw [stateAfter_ok (show popMany n s = .ok _ _ from if_pos h)]
    refine ⟨rfl, rfl, fun hi => ?_⟩
    simp only [depth, Array.size_shrink] at hi ⊢
    omega
  · rw [stateAfter_error (show popMany n s = .error _ _ from if_neg h)]
    exact Moves.ordered.refl s

theorem stateAfter_peek (s : Stack) : stateAfter peek s = s := by
  unfold stateAfter peek
  cases s.top? <;> rfl

theorem stateAfter_peekUnder (n : Nat) (s : Stack) : stateAfter (peekUnder n) s = s := by
  unfold stateAfter peekUnder
  cases s.under? n <;> rfl

theorem keeps_peek : Keeps Moves peek := fun s => by rw [stateAfter_peek]; exact Moves.ordered.refl s

theorem keeps_peekUnder (n : Nat) : Keeps Moves (peekUnder n) := fun s => by
  rw [stateAfter_peekUnder]; exact Moves.ordered.refl s

end Stack

namespace Output

/-- What any writing leaves of an output. -/
structure Grows (o o' : Output) : Prop where
  capacity : o'.capacity = o.capacity
  inside : o.text.utf8ByteSize ≤ o.capacity → o'.text.utf8ByteSize ≤ o'.capacity

theorem Grows.ordered : Ordered Grows where
  refl _ := ⟨rfl, id⟩
  trans h g := ⟨g.capacity.trans h.capacity, fun hi => g.inside (h.inside hi)⟩

theorem keeps_write (s : String) : Keeps Grows (write s) := by
  intro o
  by_cases h : o.text.utf8ByteSize + s.utf8ByteSize ≤ o.capacity
  · rw [stateAfter_ok (show write s o = .ok () { o with text := o.text ++ s } from if_pos h)]
    exact ⟨rfl, fun _ => by simpa using h⟩
  · rw [stateAfter_error (show write s o = .error .full o from if_neg h)]
    exact Grows.ordered.refl o

theorem writePieces_cons (piece : String) (pieces : List String) (o : Output) :
    writePieces (piece :: pieces) o = match write piece o with
      | .ok _ o => writePieces pieces o
      | .error _ o => .error .format o := rfl

theorem keeps_writePieces (pieces : List String) : Keeps Grows (writePieces pieces) := by
  induction pieces with
  | nil => exact .pure Grows.ordered ()
  | cons piece pieces ih =>
    intro o
    rcases h : write piece o with ⟨_, o'⟩ | ⟨e, o'⟩
    · have hs : stateAfter (writePieces (piece :: pieces)) o = stateAfter (writePieces pieces) o' := by
        rw [stateAfter, writePieces_cons, h]; rfl
      rw [hs]
      exact Grows.ordered.trans ((keeps_write piece).of_ok h) (ih o')
    · rw [stateAfter_error (show writePieces (piece :: pieces) o =
          .error .format o' by rw [writePieces_cons, h])]
      exact (keeps_write piece).of_error h

end Output

/-! ## Part by part -/

namespace Machine

theorem stateAfter_onData (op : Stack.Op α) (m : Machine σ) :
    stateAfter (onData op) m = { m with data := stateAfter op m.data } := by
  unfold stateAfter
  rw [onData_eq]
  cases op m.data <;> rfl

theorem stateAfter_onReturn (op : Stack.Op α) (m : Machine σ) :
    stateAfter (onReturn op) m = { m with ret := stateAfter op m.ret } := by
  unfold stateAfter
  rw [onReturn_eq]
  cases op m.ret <;> rfl

theorem stateAfter_onMemory (op : Memory.Op α) (m : Machine σ) :
    stateAfter (onMemory op) m = { m with memory := stateAfter op m.memory } := by
  unfold stateAfter
  rw [onMemory_eq]
  cases op m.memory <;> rfl

theorem stateAfter_onOutput (op : Output.Op α) (m : Machine σ) :
    stateAfter (onOutput op) m = { m with output := stateAfter op m.output } := by
  unfold stateAfter
  rw [onOutput_eq]
  cases op m.output <;> rfl

theorem pop_ok {m m' : Machine σ} {v : Cell} (h : pop m = .ok v m') :
    m.data.top? = some v ∧ m'.memory = m.memory := by
  rw [pop, onData_eq] at h
  unfold Stack.pop at h
  cases e : m.data.cells.back? with
  | none => rw [e] at h; cases h
  | some w => rw [e] at h; cases h; exact ⟨e, rfl⟩

theorem address_ok {m m' : Machine σ} {v : Cell} {a : Nat} (h : address v m = .ok a m') :
    v.toNat? = some a ∧ m' = m := by
  unfold address Memory.addrOfCell at h
  cases e : v.toNat? with
  | none => rw [e] at h; cases h
  | some b => rw [e] at h; cases h; exact ⟨rfl, rfl⟩

theorem onMemory_ok {op : Memory.Op α} {m m' : Machine σ} {a : α} (h : onMemory op m = .ok a m') :
    ∃ s, op m.memory = .ok a s ∧ m' = { m with memory := s } := by
  rw [onMemory_eq] at h
  cases e : op m.memory with
  | ok b s => rw [e] at h; cases h; exact ⟨s, rfl, rfl⟩
  | error f s => rw [e] at h; cases h

theorem onMemory_error {op : Memory.Op α}
    (hop : ∀ {s s' : Memory} {e : MemoryFault}, op s = .error e s' → s' = s)
    {m m' : Machine σ} {f : Fault} (h : onMemory op m = .error f m') : m'.memory = m.memory := by
  rw [onMemory_eq] at h
  cases e : op m.memory with
  | ok b s => rw [e] at h; cases h
  | error g s => rw [e] at h; cases h; exact hop e

/-- A relation between machines that allows the data stack and the output what their own
    operations do. -/
structure Shallow (R : Machine σ → Machine σ → Prop) : Prop extends Ordered R where
  data (m : Machine σ) (s : Stack) : m.data.Moves s → R m { m with data := s }
  output (m : Machine σ) (o : Output) : m.output.Grows o → R m { m with output := o }

/-- A relation between machines that allows each part what its own operations do. -/
structure PartWise (R : Machine σ → Machine σ → Prop) : Prop extends Shallow R where
  memory (m : Machine σ) (s : Memory) : m.memory.Grows s → R m { m with memory := s }

section

variable {R : Machine σ → Machine σ → Prop}

theorem Shallow.onData (h : Shallow R) {op : Stack.Op α} (hop : Keeps Stack.Moves op) :
    Keeps R (onData op) := by
  intro m
  rw [stateAfter_onData]
  exact h.data m _ (hop m.data)

theorem Shallow.onOutput (h : Shallow R) {op : Output.Op α} (hop : Keeps Output.Grows op) :
    Keeps R (onOutput op) := by
  intro m
  rw [stateAfter_onOutput]
  exact h.output m _ (hop m.output)

theorem PartWise.onMemory (h : PartWise R) {op : Memory.Op α} (hop : Keeps Memory.Grows op) :
    Keeps R (onMemory op) := by
  intro m
  rw [stateAfter_onMemory]
  exact h.memory m _ (hop m.memory)

/-- What an operation does that leaves the memory alone is no more than nothing. -/
theorem keeps_onMemory (h : Ordered R) {op : Memory.Op α} (hop : Keeps (fun s s' => s' = s) op) :
    Keeps R (onMemory op) := by
  intro m
  rw [stateAfter_onMemory, hop m.memory]
  exact h.refl m

theorem keeps_rpeek (h : Ordered R) : Keeps R rpeek := by
  intro m
  rw [rpeek, stateAfter_onReturn, Stack.stateAfter_peek]
  exact h.refl m

theorem keeps_rpeekUnder (h : Ordered R) (n : Nat) : Keeps R (rpeekUnder n) := by
  intro m
  rw [rpeekUnder, stateAfter_onReturn, Stack.stateAfter_peekUnder]
  exact h.refl m

theorem keeps_address (h : Ordered R) (v : Cell) : Keeps R (address v) := by
  unfold address
  split
  · exact .pure h _
  · exact .throw h _

theorem keeps_cell (h : Ordered R) (a : Nat) : Keeps R (cell a) := by
  unfold cell
  split
  · exact .pure h _
  · exact .throw h _

theorem keeps_count (h : Ordered R) (v : Cell) (f : Fault) : Keeps R (count v f) := by
  unfold count
  split
  · exact .pure h _
  · exact .throw h _

theorem keeps_fetchCell (h : Ordered R) (a : Nat) : Keeps R (Machine.onMemory (Memory.fetchCell a)) :=
  keeps_onMemory h (Memory.keeps_fetchCell .same a)

/-- What the data stack's and the output's own operations keep, words that print keep. -/
theorem Shallow.printing (h : Shallow R) : Act.Printing (fun x => Keeps R x) where
  pure := .pure h.toOrdered
  bind := .bind h.toOrdered
  divideByZero := .throw h.toOrdered _
  push v := h.onData (Stack.keeps_push v)
  pop := h.onData Stack.keeps_pop
  peek := h.onData Stack.keeps_peek
  peekUnder n := h.onData (Stack.keeps_peekUnder n)
  address := keeps_address h.toOrdered
  cell := keeps_cell h.toOrdered
  count v := keeps_count h.toOrdered v _
  fetchBytes a n := keeps_onMemory h.toOrdered (Memory.keeps_fetchBytes .same a n)
  write s := h.onOutput (Output.keeps_write s)
  writeBytes _ := h.onOutput (Output.keeps_write _)
  print _ := h.onOutput (Output.keeps_writePieces _)
  depth hf := .bind h.toOrdered (.get h.toOrdered) fun m => hf m.data.depth

/-- What every part's own operations keep, ordinary words keep. -/
theorem PartWise.closed (h : PartWise R) : Act.Closed (fun x => Keeps R x) where
  toPrinting := h.toShallow.printing
  rpeek := keeps_rpeek h.toOrdered
  rpeekUnder := keeps_rpeekUnder h.toOrdered
  fetchCell := keeps_fetchCell h.toOrdered
  fetchByte a := h.onMemory (Memory.keeps_fetchByte Memory.Grows.ordered a)
  allot n := h.onMemory (Memory.keeps_allot n)
  bumpCell v := h.onMemory (Memory.keeps_bumpCell v)
  bumpBytes bytes := h.onMemory (Memory.keeps_bumpBytes bytes)
  here hf := .bind h.toOrdered (.get h.toOrdered) fun m => hf m.memory.here

/-- What moves on the return stack keep, the words that make them keep. -/
theorem returning_keeps (hret : ∀ (m : Machine σ) s, m.ret.Moves s → R m { m with ret := s }) :
    Act.Returning (fun x => Keeps R x) where
  rpush v m := by
    rw [rpush, stateAfter_onReturn]
    exact hret m _ (Stack.keeps_push v m.ret)
  rpop m := by
    rw [rpop, stateAfter_onReturn]
    exact hret m _ (Stack.keeps_pop m.ret)

theorem keeps_getIp (h : Ordered R) : Keeps R getIp := by
  refine .bind h (.get h) fun m => ?_
  split
  · exact .pure h _
  · exact .throw h _

/-- What may be done to the return stack and the instruction pointer is all that the
    compiler's own instructions need besides. -/
theorem steering_keeps (h : Ordered R) (hret : ∀ (m : Machine σ) s, m.ret.Moves s → R m { m with ret := s })
    (hip : ∀ (m : Machine σ) ip, R m { m with ip := ip }) : Act.Steering (fun x => Keeps R x) where
  toReturning := returning_keeps hret
  operand := .bind h (keeps_getIp h) fun a => .bind h (keeps_fetchCell h a) fun _ =>
    .bind h (.modify fun m => hip m _) fun _ => .pure h _
  jumpTo target := .bind h (keeps_address h target) fun _ => .modify fun m => hip m _
  skipInline _ := .bind h (keeps_getIp h) fun _ => .bind h (.modify fun m => hip m _) fun _ => .pure h _
  missingOperand v := keeps_count h v _
  leave := by
    refine .bind h (.get h) fun m => ?_
    split
    · exact .modify fun m => hip m _
    · exact .bind h (returning_keeps hret).rpop fun v => .bind h (keeps_address h v) fun _ =>
          .modify fun m => hip m _

theorem keeps_call (h : Ordered R) (hret : ∀ (m : Machine σ) s, m.ret.Moves s → R m { m with ret := s })
    (hplace : ∀ (m : Machine σ) ip base, R m { m with ip := ip, base := base }) (entry : Nat) :
    Keeps R (call entry) := by
  refine .bind h (.get h) fun m => ?_
  split
  · exact .bind h (keeps_cell h _) fun v => .bind h ((returning_keeps hret).rpush v) fun _ =>
        .modify fun m => hplace m _ _
  · exact .modify fun m => hplace m _ _

/-- What is kept by any store, the words that store keep. -/
theorem storing_keeps (h : Ordered R) (hstore : ∀ (m : Machine σ) s a len, Memory.Stores a len m.memory s →
    R m { m with memory := s }) : Act.Storing (fun x => Keeps R x) where
  storeCell a v := by
    intro m
    rw [stateAfter_onMemory]
    rcases e : Memory.storeCell a v m.memory with ⟨_, s⟩ | ⟨f, s⟩
    · rw [stateAfter_ok e, (Memory.storeCell_ok e).2]
      exact hstore m _ a _ (Memory.setBytes_stores ..)
    · rw [stateAfter_error e, Memory.storeCell_error e]
      exact h.refl m
  storeByte a v := by
    intro m
    rw [stateAfter_onMemory]
    rcases e : Memory.storeByte a v m.memory with ⟨_, s⟩ | ⟨f, s⟩
    · rw [stateAfter_ok e, (Memory.storeByte_ok e).2]
      exact hstore m _ a 1 (Memory.setBytes_stores m.memory a [v])
    · rw [stateAfter_error e, Memory.storeByte_error e]
      exact h.refl m

/-! ## Native words -/

theorem onSurface_eq (op : Memory → EStateM Fault (Surface σ) α) (m : Machine σ) :
    onSurface op m = match op m.memory ⟨m.host, m.output⟩ with
      | .ok a s => .ok a { m with host := s.host, output := s.output }
      | .error e s => .error e { m with host := s.host, output := s.output } := by
  obtain ⟨data, ret, memory, output, host, ip, base⟩ := m
  simp only [onSurface]
  cases op memory ⟨host, output⟩ <;> rfl

theorem stateAfter_onSurface (op : Memory → EStateM Fault (Surface σ) α) (m : Machine σ) :
    stateAfter (onSurface op) m =
      { m with
        host := (stateAfter (op m.memory) ⟨m.host, m.output⟩).host
        output := (stateAfter (op m.memory) ⟨m.host, m.output⟩).output } := by
  unfold stateAfter
  rw [onSurface_eq]
  cases op m.memory ⟨m.host, m.output⟩ <;> rfl

theorem keeps_callNative (h : Shallow R) {f : Native σ}
    (hf : ∀ (m : Machine σ) args, R m (stateAfter (onSurface (f args)) m)) (arity : Nat) :
    Keeps R (callNative arity f) := by
  refine .bind h.toOrdered (h.onData (Stack.keeps_popMany arity)) fun args => ?_
  refine .bind h.toOrdered (fun m => hf m args) fun r => ?_
  split
  · exact h.onData (Stack.keeps_push _)
  · exact .pure h.toOrdered ()

end

/-! ## Acting the same everywhere -/

/-- The machine at another place, in a run that ends at another depth. -/
def placed (m : Machine σ) (ip : Option Nat) (base : Nat) : Machine σ := { m with ip := ip, base := base }

@[simp] theorem placed_placed (m : Machine σ) (i j : Option Nat) (b c : Nat) :
    (m.placed i b).placed j c = m.placed j c := rfl

@[simp] theorem ip_placed (m : Machine σ) (i : Option Nat) (b : Nat) : (m.placed i b).ip = i := rfl

@[simp] theorem base_placed (m : Machine σ) (i : Option Nat) (b : Nat) : (m.placed i b).base = b := rfl

@[simp] theorem data_placed (m : Machine σ) (i : Option Nat) (b : Nat) : (m.placed i b).data = m.data := rfl

@[simp] theorem ret_placed (m : Machine σ) (i : Option Nat) (b : Nat) : (m.placed i b).ret = m.ret := rfl

@[simp] theorem memory_placed (m : Machine σ) (i : Option Nat) (b : Nat) :
    (m.placed i b).memory = m.memory := rfl

@[simp] theorem output_placed (m : Machine σ) (i : Option Nat) (b : Nat) :
    (m.placed i b).output = m.output := rfl

@[simp] theorem host_placed (m : Machine σ) (i : Option Nat) (b : Nat) : (m.placed i b).host = m.host := rfl

end Machine

namespace Act

open Machine

/-- It does the same to a machine that is changed in one of these ways, and leaves it changed. -/
def Commutes {ι : Type} (Φ : ι → Machine σ → Machine σ) (x : Act σ α) : Prop :=
  ∀ i m, x (Φ i m) = mapState (Φ i) (x m)

namespace Commutes

variable {ι : Type} {Φ : ι → Machine σ → Machine σ}

theorem pure (a : α) : Commutes Φ (Pure.pure a : Act σ α) := fun _ _ => rfl

theorem throw (f : Fault) : Commutes Φ (throw f : Act σ α) := fun _ _ => rfl

theorem bind {x : Act σ α} {f : α → Act σ β} (hx : Commutes Φ x) (hf : ∀ a, Commutes Φ (f a)) :
    Commutes Φ (x >>= f) := by
  intro i m
  rw [bind_apply, bind_apply, hx]
  rcases x m with ⟨a, m'⟩ | ⟨e, m'⟩
  · exact hf a i m'
  · rfl

theorem stateAfter_eq {x : Act σ α} (hx : Commutes Φ x) (i : ι) (m : Machine σ) :
    stateAfter x (Φ i m) = Φ i (stateAfter x m) := by
  unfold stateAfter
  rw [hx]
  cases x m <;> rfl

-- A change that a part can be replaced under leaves that part alone.
theorem onData (h : ∀ i m s, Φ i { m with data := s } = { Φ i m with data := s }) (op : Stack.Op α) :
    Commutes Φ (onData op : Act σ α) := by
  intro i m
  have hpart : (Φ i m).data = m.data := (congrArg Machine.data (h i m m.data) :)
  rw [onData_eq, onData_eq, hpart]
  rcases op m.data with ⟨a, s⟩ | ⟨e, s⟩
  · exact congrArg (EStateM.Result.ok a) (h i m s).symm
  · exact congrArg (EStateM.Result.error (Fault.stack e)) (h i m s).symm

theorem onReturn (h : ∀ i m s, Φ i { m with ret := s } = { Φ i m with ret := s }) (op : Stack.Op α) :
    Commutes Φ (onReturn op : Act σ α) := by
  intro i m
  have hpart : (Φ i m).ret = m.ret := (congrArg Machine.ret (h i m m.ret) :)
  rw [onReturn_eq, onReturn_eq, hpart]
  rcases op m.ret with ⟨a, s⟩ | ⟨e, s⟩
  · exact congrArg (EStateM.Result.ok a) (h i m s).symm
  · exact congrArg (EStateM.Result.error (Fault.stack e)) (h i m s).symm

theorem onMemory (h : ∀ i m s, Φ i { m with memory := s } = { Φ i m with memory := s }) (op : Memory.Op α) :
    Commutes Φ (onMemory op : Act σ α) := by
  intro i m
  have hpart : (Φ i m).memory = m.memory := (congrArg Machine.memory (h i m m.memory) :)
  rw [onMemory_eq, onMemory_eq, hpart]
  rcases op m.memory with ⟨a, s⟩ | ⟨e, s⟩
  · exact congrArg (EStateM.Result.ok a) (h i m s).symm
  · exact congrArg (EStateM.Result.error (Fault.memory e)) (h i m s).symm

theorem onOutput (h : ∀ i m s, Φ i { m with output := s } = { Φ i m with output := s }) (op : Output.Op α) :
    Commutes Φ (onOutput op : Act σ α) := by
  intro i m
  have hpart : (Φ i m).output = m.output := (congrArg Machine.output (h i m m.output) :)
  rw [onOutput_eq, onOutput_eq, hpart]
  rcases op m.output with ⟨a, s⟩ | ⟨e, s⟩
  · exact congrArg (EStateM.Result.ok a) (h i m s).symm
  · exact congrArg (EStateM.Result.error (Fault.output e)) (h i m s).symm

theorem address (v : Cell) : Commutes Φ (address v : Act σ Nat) := by
  unfold Machine.address
  split
  · exact pure _
  · exact throw _

theorem cell (a : Nat) : Commutes Φ (cell a : Act σ Cell) := by
  unfold Machine.cell
  split
  · exact pure _
  · exact throw _

theorem count (v : Cell) (f : Fault) : Commutes Φ (count v f : Act σ Nat) := by
  unfold Machine.count
  split
  · exact pure _
  · exact throw _

end Commutes

/-- It acts the same wherever the machine is, and leaves it there. -/
def Placeless (x : Act σ α) : Prop := ∀ m ip base, x (m.placed ip base) = mapState (·.placed ip base) (x m)

namespace Placeless

theorem iff_commutes {x : Act σ α} :
    Placeless x ↔ Commutes (fun (p : Option Nat × Nat) m => m.placed p.1 p.2) x :=
  ⟨fun h p m => h m p.1 p.2, fun h m ip base => h (ip, base) m⟩

theorem pure (a : α) : Placeless (Pure.pure a : Act σ α) := fun _ _ _ => rfl

theorem throw (f : Fault) : Placeless (throw f : Act σ α) := fun _ _ _ => rfl

theorem bind {x : Act σ α} {f : α → Act σ β} (hx : Placeless x) (hf : ∀ a, Placeless (f a)) :
    Placeless (x >>= f) :=
  iff_commutes.mpr (.bind (iff_commutes.mp hx) fun a => iff_commutes.mp (hf a))

theorem onData (op : Stack.Op α) : Placeless (onData op : Act σ α) :=
  iff_commutes.mpr (.onData (fun _ _ _ => rfl) op)

theorem onReturn (op : Stack.Op α) : Placeless (onReturn op : Act σ α) :=
  iff_commutes.mpr (.onReturn (fun _ _ _ => rfl) op)

theorem onMemory (op : Memory.Op α) : Placeless (onMemory op : Act σ α) :=
  iff_commutes.mpr (.onMemory (fun _ _ _ => rfl) op)

theorem onOutput (op : Output.Op α) : Placeless (onOutput op : Act σ α) :=
  iff_commutes.mpr (.onOutput (fun _ _ _ => rfl) op)

theorem onSurface (op : Memory → EStateM Fault (Surface σ) α) : Placeless (onSurface op) := by
  intro m ip base
  rw [onSurface_eq, onSurface_eq, memory_placed, output_placed, host_placed]
  cases op m.memory ⟨m.host, m.output⟩ <;> rfl

theorem address (v : Cell) : Placeless (address v : Act σ Nat) := iff_commutes.mpr (.address v)

theorem cell (a : Nat) : Placeless (cell a : Act σ Cell) := iff_commutes.mpr (.cell a)

theorem count (v : Cell) (f : Fault) : Placeless (count v f : Act σ Nat) := iff_commutes.mpr (.count v f)

theorem closed : Act.Closed (fun x => Placeless (σ := σ) x) where
  pure := pure
  bind := bind
  divideByZero := throw _
  push _ := onData _
  pop := onData _
  peek := onData _
  peekUnder _ := onData _
  rpeek := onReturn _
  rpeekUnder _ := onReturn _
  address := address
  cell := cell
  count v := count v _
  fetchCell _ := onMemory _
  fetchByte _ := onMemory _
  fetchBytes _ _ := onMemory _
  allot _ := onMemory _
  bumpCell _ := onMemory _
  bumpBytes _ := onMemory _
  write _ := onOutput _
  writeBytes _ := onOutput _
  print _ := onOutput _
  depth hf m ip base := hf m.data.depth m ip base
  here hf m ip base := hf m.memory.here m ip base

/-- A word of the program does not look where the machine is. -/
theorem run {p : Primitive} (hp : p.isControl = false) : Placeless (p.run : Act σ Unit) :=
  closed.run p (fun h => by rw [hp] at h; cases h) (fun _ => ⟨fun _ => onReturn _, onReturn _⟩)
    (fun _ => ⟨fun _ _ => onMemory _, fun _ _ => onMemory _⟩)

theorem callNative (arity : Nat) (f : Native σ) : Placeless (callNative arity f) := by
  refine bind (onData _) fun args => bind (onSurface _) fun r => ?_
  split
  · exact onData _
  · exact pure ()

end Placeless

end Act

/-! ## Faults -/

namespace Fault

/-- The faults of code that is not code: a token of no word, an operand that is not there. -/
def isStray : Fault → Bool
  | .badToken _ | .missingOperand => true
  | _ => false

/-- The faults of an output that is full. -/
def isOutput : Fault → Bool
  | .output _ => true
  | _ => false

/-- The faults of reading where there is nothing to read: those, and an address out of bounds. -/
def isMisread : Fault → Bool
  | .memory _ => true
  | f => f.isStray

end Fault

namespace Act

open Machine

/-- Where it fails, it is with none of these faults. -/
def Avoids (bad : Fault → Bool) (x : Act σ α) : Prop := ∀ m f m', x m = .error f m' → bad f = false

namespace Avoids

variable {bad : Fault → Bool}

theorem pure (a : α) : Avoids bad (Pure.pure a : Act σ α) := fun _ _ _ h => by cases h

theorem throw {f : Fault} (hf : bad f = false) : Avoids bad (throw f : Act σ α) :=
  fun _ _ _ h => by cases h; exact hf

theorem bind {x : Act σ α} {f : α → Act σ β} (hx : Avoids bad x) (hf : ∀ a, Avoids bad (f a)) :
    Avoids bad (x >>= f) := by
  intro m e m' h
  rcases bind_error_iff.mp h with h | ⟨a, m₁, -, h⟩
  · exact hx m e m' h
  · exact hf a m₁ e m' h

theorem onData (hbad : ∀ e, bad (.stack e) = false) (op : Stack.Op α) : Avoids bad (onData op : Act σ α) := by
  intro m f m' h
  rw [onData_eq] at h
  split at h <;> cases h
  exact hbad _

theorem onReturn (hbad : ∀ e, bad (.stack e) = false) (op : Stack.Op α) :
    Avoids bad (onReturn op : Act σ α) := by
  intro m f m' h
  rw [onReturn_eq] at h
  split at h <;> cases h
  exact hbad _

theorem onMemory (hbad : ∀ e, bad (.memory e) = false) (op : Memory.Op α) :
    Avoids bad (onMemory op : Act σ α) := by
  intro m f m' h
  rw [onMemory_eq] at h
  split at h <;> cases h
  exact hbad _

theorem onOutput (hbad : ∀ e, bad (.output e) = false) (op : Output.Op α) :
    Avoids bad (onOutput op : Act σ α) := by
  intro m f m' h
  rw [onOutput_eq] at h
  split at h <;> cases h
  exact hbad _

theorem address (hbad : ∀ e, bad (.memory e) = false) (v : Cell) : Avoids bad (address v : Act σ Nat) := by
  unfold Machine.address
  split
  · exact pure _
  · exact throw (hbad _)

theorem cell (hbad : ∀ e, bad (.memory e) = false) (a : Nat) : Avoids bad (cell a : Act σ Cell) := by
  unfold Machine.cell
  split
  · exact pure _
  · exact throw (hbad _)

theorem count (v : Cell) {f : Fault} (hf : bad f = false) : Avoids bad (count v f : Act σ Nat) := by
  unfold Machine.count
  split
  · exact pure _
  · exact throw hf

/-- What an ordinary word can fail with that prints nothing: the faults of the parts it acts on,
    and two of its own. -/
theorem quiet (hstack : ∀ e, bad (.stack e) = false) (hmemory : ∀ e, bad (.memory e) = false)
    (hzero : bad .divideByZero = false) (hcount : bad .negativeCount = false) :
    Act.Quiet (fun x => Avoids (σ := σ) bad x) where
  pure := pure
  bind := bind
  divideByZero := throw hzero
  push _ := onData hstack _
  pop := onData hstack _
  peek := onData hstack _
  peekUnder _ := onData hstack _
  rpeek := onReturn hstack _
  rpeekUnder _ := onReturn hstack _
  address := address hmemory
  cell := cell hmemory
  count v := count v hcount
  fetchCell _ := onMemory hmemory _
  fetchByte _ := onMemory hmemory _
  allot _ := onMemory hmemory _
  bumpCell _ := onMemory hmemory _
  bumpBytes _ := onMemory hmemory _
  depth hf m f m' h := hf m.data.depth m f m' h
  here hf m f m' h := hf m.memory.here m f m' h

/-- One that prints can fail with the faults of the output besides. -/
theorem closed (hstack : ∀ e, bad (.stack e) = false) (hmemory : ∀ e, bad (.memory e) = false)
    (houtput : ∀ e, bad (.output e) = false) (hzero : bad .divideByZero = false)
    (hcount : bad .negativeCount = false) :
    Act.Closed (fun x => Avoids (σ := σ) bad x) where
  toQuiet := quiet hstack hmemory hzero hcount
  fetchBytes _ _ := onMemory hmemory _
  write _ := onOutput houtput _
  writeBytes _ := onOutput houtput _
  print _ := onOutput houtput _

theorem getIp (hmissing : bad .missingOperand = false) : Avoids bad (getIp : Act σ Nat) := by
  refine bind (fun _ _ _ h => by cases h) fun m => ?_
  split
  · exact pure _
  · exact throw hmissing

theorem setIp (ip : Option Nat) : Avoids bad (setIp ip : Act σ Unit) := fun _ _ _ h => by cases h

/-- What moves the instruction pointer can fail with besides: a missing operand. -/
theorem steering (hstack : ∀ e, bad (.stack e) = false) (hmemory : ∀ e, bad (.memory e) = false)
    (hmissing : bad .missingOperand = false) : Act.Steering (fun x => Avoids (σ := σ) bad x) where
  rpush _ := onReturn hstack _
  rpop := onReturn hstack _
  operand := (getIp hmissing).bind fun _ => (onMemory hmemory _).bind fun _ => (setIp _).bind fun _ => pure _
  jumpTo target := (address hmemory target).bind fun _ => setIp _
  skipInline _ := (getIp hmissing).bind fun _ => (setIp _).bind fun _ => pure _
  missingOperand v := count v hmissing
  leave := by
    refine bind (fun _ _ _ h => by cases h) fun m => ?_
    split
    · exact setIp _
    · exact (onReturn hstack _).bind fun v => (address hmemory v).bind fun _ => setIp _

/-- A word of the program never strays. -/
theorem isStray_run {p : Primitive} (hp : p.isControl = false) : Avoids Fault.isStray (p.run : Act σ Unit) :=
  (closed (fun _ => rfl) (fun _ => rfl) (fun _ => rfl) rfl rfl).run p (fun h => by rw [hp] at h; cases h)
    (fun _ => ⟨fun _ => onReturn (fun _ => rfl) _, onReturn (fun _ => rfl) _⟩)
    (fun _ => ⟨fun _ _ => onMemory (fun _ => rfl) _, fun _ _ => onMemory (fun _ => rfl) _⟩)

end Avoids

end Act

/-! ## The return stack and the memory -/

namespace Machine

theorem sameReturn_partWise : PartWise (fun m m' : Machine σ => m'.ret = m.ret) where
  refl _ := rfl
  trans h g := g.trans h
  data _ _ _ := rfl
  memory _ _ _ := rfl
  output _ _ _ := rfl

theorem sameMemory_ordered : Ordered (fun m m' : Machine σ => m'.memory = m.memory) :=
  ⟨fun _ => rfl, fun h g => g.trans h⟩

theorem sameMemory_pop : Keeps (fun m m' : Machine σ => m'.memory = m.memory) pop := by
  intro m
  rw [pop, stateAfter_onData]

theorem sameMemory_fetchCell (a : Nat) :
    Keeps (fun m m' : Machine σ => m'.memory = m.memory) (onMemory (Memory.fetchCell a)) :=
  keeps_fetchCell sameMemory_ordered a

theorem growing_partWise : PartWise (fun m m' : Machine σ => m.memory.Grows m'.memory) where
  refl m := Memory.Grows.ordered.refl m.memory
  trans := Memory.Grows.ordered.trans
  data m _ _ := Memory.Grows.ordered.refl m.memory
  memory _ _ h := h
  output m _ _ := Memory.Grows.ordered.refl m.memory

end Machine

namespace Primitive

open Machine

/-- A word that makes no move on the return stack leaves it as it was. -/
theorem ret_run {p : Primitive} (hc : p.isControl = false) (hr : p.movesReturn = false) :
    Keeps (fun m m' : Machine σ => m'.ret = m.ret) p.run :=
  sameReturn_partWise.closed.run p (fun h => by rw [hc] at h; cases h) (fun h => by rw [hr] at h; cases h)
    (fun _ => storing_keeps sameReturn_partWise.toOrdered fun _ _ _ _ _ => rfl)

/-- Without a store, all that happens to the memory is that it grows. -/
theorem grows_run {p : Primitive} (hs : p.isStore = false) :
    Keeps (fun m m' : Machine σ => m.memory.Grows m'.memory) p.run :=
  growing_partWise.closed.run p
    (fun _ => steering_keeps growing_partWise.toOrdered (fun m _ _ => Memory.Grows.ordered.refl m.memory)
      fun m _ => Memory.Grows.ordered.refl m.memory)
    (fun _ => returning_keeps fun m _ _ => Memory.Grows.ordered.refl m.memory)
    (fun h => by rw [hs] at h; cases h)

/-- Where a store is aimed and how many bytes it writes there. -/
def target? (m : Machine σ) : Primitive → Option (Nat × Nat)
  | .store | .addStore => (m.data.top?.bind Cell.toNat?).map (·, 4)
  | .storeByte => (m.data.top?.bind Cell.toNat?).map (·, 1)
  | _ => none

/-- Every store first takes its address from the stack. -/
theorem aimed_ok {f : Nat → Act σ Unit} {m m' : Machine σ}
    (h : (pop >>= fun v => address v >>= f) m = .ok () m') :
    ∃ a m₁, m.data.top?.bind Cell.toNat? = some a ∧ m₁.memory = m.memory ∧ f a m₁ = .ok () m' := by
  obtain ⟨v, m₁, hv, h⟩ := bind_ok_iff.mp h
  obtain ⟨a, m₂, ha, hf⟩ := bind_ok_iff.mp h
  obtain ⟨hn, rfl⟩ := address_ok ha
  exact ⟨a, m₂, by rw [(pop_ok hv).1]; exact hn, (pop_ok hv).2, hf⟩

theorem aimed_error {f : Nat → Act σ Unit} {m m' : Machine σ} {e : Fault}
    (hf : ∀ a m₁, f a m₁ = .error e m' → m'.memory = m₁.memory)
    (h : (pop >>= fun v => address v >>= f) m = .error e m') : m'.memory = m.memory := by
  rcases bind_error_iff.mp h with h | ⟨v, m₁, hv, h⟩
  · exact sameMemory_pop.of_error h
  rcases bind_error_iff.mp h with h | ⟨a, m₂, ha, h⟩
  · exact ((keeps_address sameMemory_ordered v).of_error h).trans (sameMemory_pop.of_ok hv)
  · rw [(address_ok ha).2] at h
    exact (hf a _ h).trans (sameMemory_pop.of_ok hv)

/-- A store writes where it is aimed and nowhere else. -/
theorem storeRun_ok {p : Primitive} (hs : p.isStore = true) {m m' : Machine σ} (h : p.run m = .ok () m') :
    ∃ a len, p.target? m = some (a, len) ∧ Memory.Stores a len m.memory m'.memory := by
  cases p <;> cases hs
  case store =>
    obtain ⟨a, m₁, ha, hm, h⟩ := aimed_ok h
    obtain ⟨w, m₂, h₂, h⟩ := bind_ok_iff.mp h
    obtain ⟨s, hs, rfl⟩ := onMemory_ok h
    obtain ⟨-, rfl⟩ := Memory.storeCell_ok hs
    refine ⟨a, 4, by rw [target?, ha]; rfl, ?_⟩
    rw [← hm, ← (pop_ok h₂).2]
    exact Memory.setBytes_stores _ a w.toBytes
  case storeByte =>
    obtain ⟨a, m₁, ha, hm, h⟩ := aimed_ok h
    obtain ⟨w, m₂, h₂, h⟩ := bind_ok_iff.mp h
    obtain ⟨s, hs, rfl⟩ := onMemory_ok h
    obtain ⟨-, rfl⟩ := Memory.storeByte_ok hs
    refine ⟨a, 1, by rw [target?, ha]; rfl, ?_⟩
    rw [← hm, ← (pop_ok h₂).2]
    exact Memory.setBytes_stores _ a [w.lowByte]
  case addStore =>
    obtain ⟨a, m₁, ha, hm, h⟩ := aimed_ok h
    obtain ⟨w, m₂, h₂, h⟩ := bind_ok_iff.mp h
    obtain ⟨old, m₃, h₃, h⟩ := bind_ok_iff.mp h
    obtain ⟨s, hs, rfl⟩ := onMemory_ok h
    obtain ⟨-, rfl⟩ := Memory.storeCell_ok hs
    refine ⟨a, 4, by rw [target?, ha]; rfl, ?_⟩
    rw [← hm, ← (pop_ok h₂).2, ← (sameMemory_fetchCell a).of_ok h₃]
    exact Memory.setBytes_stores _ a (old + w).toBytes

/-- A store that fails has written nothing. -/
theorem storeRun_error {p : Primitive} (hs : p.isStore = true) {m m' : Machine σ} {f : Fault}
    (h : p.run m = .error f m') : m'.memory = m.memory := by
  cases p <;> cases hs
  case store =>
    refine aimed_error (fun a m₁ h => ?_) h
    rcases bind_error_iff.mp h with h | ⟨w, m₂, h₂, h⟩
    · exact sameMemory_pop.of_error h
    · rw [onMemory_error Memory.storeCell_error h, sameMemory_pop.of_ok h₂]
  case storeByte =>
    refine aimed_error (fun a m₁ h => ?_) h
    rcases bind_error_iff.mp h with h | ⟨w, m₂, h₂, h⟩
    · exact sameMemory_pop.of_error h
    · rw [onMemory_error Memory.storeByte_error h, sameMemory_pop.of_ok h₂]
  case addStore =>
    refine aimed_error (fun a m₁ h => ?_) h
    rcases bind_error_iff.mp h with h | ⟨w, m₂, h₂, h⟩
    · exact sameMemory_pop.of_error h
    rcases bind_error_iff.mp h with h | ⟨old, m₃, h₃, h⟩
    · exact ((sameMemory_fetchCell a).of_error h).trans (sameMemory_pop.of_ok h₂)
    · rw [onMemory_error Memory.storeCell_error h, (sameMemory_fetchCell a).of_ok h₃, sameMemory_pop.of_ok h₂]

end Primitive

end Handheld
