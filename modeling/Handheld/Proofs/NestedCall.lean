/-
  Handheld.Proofs.NestedCall — a word called inside a run does what it does when called from outside.

  Called from outside, code ends where it returns at the depth it began with. Called inside a
  run, it returns through the cell that the call left on the return stack. So the two runs are
  one and the same on the cells that the code itself puts there, with one more cell below them
  in the second. An act that goes through on those cells alone does the same whatever lies
  below (`Act.Overlies`), as long as there is room (`Act.Fits`); only a return that finds none
  of them left tells the two apart.
-/

import Handheld.Proofs.Budget

namespace Handheld

variable {σ α β : Type}

/-! ## Return stacks one upon another -/

namespace Stack

theorem pop_ok {s s' : Stack} {v : Cell} (h : pop s = .ok v s') : s = s'.pushed v := by
  unfold pop at h
  cases hback : s.cells.back? with
  | none => rw [hback] at h; cases h
  | some w =>
    rw [hback] at h
    cases h
    obtain ⟨kind, capacity, cells⟩ := s
    obtain ⟨rest, rfl⟩ := Array.back?_eq_some_iff.mp hback
    simp [pushed]

end Stack

namespace Machine

/-- The machine with its return stack upon the cells `low`, in a stack of that capacity. -/
def upon (m : Machine σ) (low : Array Cell) (capacity base : Nat) : Machine σ :=
  { m with ret := ⟨m.ret.kind, capacity, low ++ m.ret.cells⟩, base := base }

/-- The machine at the beginning of code that has no cells of its own on the return stack yet. -/
def entering (m : Machine σ) (entry : Nat) : Machine σ :=
  { m with ret := ⟨m.ret.kind, m.ret.capacity, #[]⟩, ip := some entry }

/-- The machine without the cells of the return stack below depth `r`, and without their room. -/
def above (m : Machine σ) (r : Nat) : Machine σ :=
  { m with ret := ⟨m.ret.kind, m.ret.capacity - r, m.ret.cells.extract r m.ret.cells.size⟩, base := 0 }

theorem upon_upon (m : Machine σ) (low low' : Array Cell) (c c' b b' : Nat) :
    (m.upon low c b).upon low' c' b' = m.upon (low' ++ low) c' b' := by
  simp [upon, Array.append_assoc]

theorem upon_empty_upon (m : Machine σ) (low : Array Cell) (c c' b b' : Nat) :
    (m.upon #[] c b).upon low c' b' = m.upon low c' b' := by
  rw [upon_upon, Array.append_empty]

theorem above_upon (m : Machine σ) (low : Array Cell) (c b : Nat) :
    (m.upon low c b).above low.size = m.upon #[] (c - low.size) 0 := by
  simp [upon, above]

theorem depth_upon (m : Machine σ) (low : Array Cell) (c b : Nat) :
    (m.upon low c b).ret.depth = low.size + m.ret.depth := by
  simp [upon, Stack.depth]

end Machine

/-! ## What lies below makes no difference -/

namespace Act

open Machine

/-- What succeeds with the cells there are does the same with other cells below them, whatever
    the room; and code that was running still is. -/
structure Overlies (x : Act σ α) : Prop where
  upon {m t : Machine σ} {a : α} : x m = .ok a t → ∀ low c b, x (m.upon low c b) = .ok a (t.upon low c b)
  running {m t : Machine σ} {a : α} : x m = .ok a t → m.ip.isSome = true → t.ip.isSome = true

/-- The same, as long as the cells it leaves have room. -/
structure Fits (x : Act σ α) : Prop where
  upon {m t : Machine σ} {a : α} : x m = .ok a t → ∀ low c b, low.size + t.ret.depth ≤ c →
    x (m.upon low c b) = .ok a (t.upon low c b)
  running {m t : Machine σ} {a : α} : x m = .ok a t → m.ip.isSome = true → t.ip.isSome = true

namespace Overlies

theorem fits {x : Act σ α} (h : Overlies x) : Fits x :=
  ⟨fun hx low c b _ => h.upon hx low c b, h.running⟩

theorem pure (a : α) : Overlies (Pure.pure a : Act σ α) :=
  ⟨fun h low c b => by cases h; rfl, fun h hip => by cases h; exact hip⟩

theorem throw (f : Fault) : Overlies (throw f : Act σ α) :=
  ⟨fun h _ _ _ => (by cases h), fun h _ => (by cases h)⟩

theorem bind {x : Act σ α} {f : α → Act σ β} (hx : Overlies x) (hf : ∀ a, Overlies (f a)) :
    Overlies (x >>= f) := by
  constructor
  · intro m t b h low c base
    obtain ⟨a, m₁, h₁, h₂⟩ := bind_ok_iff.mp h
    rw [bind_of_ok (hx.upon h₁ low c base)]
    exact (hf a).upon h₂ low c base
  · intro m t b h hip
    obtain ⟨a, m₁, h₁, h₂⟩ := bind_ok_iff.mp h
    exact (hf a).running h₂ (hx.running h₁ hip)

/-- An act on other parts of the machine. -/
theorem of_commutes {x : Act σ α}
    (h : Commutes (fun (p : Array Cell × Nat × Nat) m => m.upon p.1 p.2.1 p.2.2) x)
    (hip : ∀ m a t, x m = .ok a t → t.ip = m.ip) : Overlies x := by
  constructor
  · intro m t a hx low c b
    have hupon := h (low, c, b) m
    rw [hx] at hupon
    exact hupon
  · intro m t a hx hsome
    rw [hip m a t hx]
    exact hsome

theorem onData (op : Stack.Op α) : Overlies (onData op : Act σ α) := by
  refine of_commutes (.onData (fun _ _ _ => rfl) op) fun m a t h => ?_
  rw [onData_eq] at h
  split at h <;> cases h
  rfl

theorem onMemory (op : Memory.Op α) : Overlies (onMemory op : Act σ α) := by
  refine of_commutes (.onMemory (fun _ _ _ => rfl) op) fun m a t h => ?_
  rw [onMemory_eq] at h
  split at h <;> cases h
  rfl

theorem onOutput (op : Output.Op α) : Overlies (onOutput op : Act σ α) := by
  refine of_commutes (.onOutput (fun _ _ _ => rfl) op) fun m a t h => ?_
  rw [onOutput_eq] at h
  split at h <;> cases h
  rfl

theorem onSurface (op : Memory → EStateM Fault (Surface σ) α) : Overlies (onSurface op) := by
  refine of_commutes (fun p m => ?_) fun m a t h => ?_
  · rw [onSurface_eq, onSurface_eq]
    obtain ⟨low, c, b⟩ := p
    have hpart : op (m.upon low c b).memory ⟨(m.upon low c b).host, (m.upon low c b).output⟩ =
        op m.memory ⟨m.host, m.output⟩ := rfl
    rw [hpart]
    cases op m.memory ⟨m.host, m.output⟩ <;> rfl
  · rw [onSurface_eq] at h
    split at h <;> cases h
    rfl

theorem rpop : Overlies (rpop : Act σ Cell) := by
  have hpop {m t : Machine σ} {v : Cell} (h : Machine.rpop m = .ok v t) :
      m = { t with ret := t.ret.pushed v } := by
    rw [Machine.rpop, onReturn_eq] at h
    split at h <;> cases h
    next hs => rw [← Stack.pop_ok hs]
  constructor
  · intro m t v h low c b
    rw [hpop h]
    refine rpop_pushed (s := (t.upon low c b).ret) ?_
    simp [Machine.upon, Stack.pushed]
  · intro m t v h hip
    rw [hpop h] at hip
    exact hip

theorem rpeek : Overlies (rpeek : Act σ Cell) := by
  constructor
  · intro m t v h low c b
    rw [Machine.rpeek, onReturn_eq] at h ⊢
    unfold Stack.peek Stack.top? at h ⊢
    cases htop : m.ret.cells.back? with
    | none => rw [htop] at h; cases h
    | some w =>
      rw [htop] at h
      cases h
      have htop' : (m.upon low c b).ret.cells.back? = some v := by
        simp [Machine.upon, Array.back?_append, htop]
      rw [htop']
  · intro m t v h hip
    have hsame :=
      (keeps_rpeek (R := fun m t : Machine σ => t.ip = m.ip) ⟨fun _ => rfl, fun h g => g.trans h⟩).of_ok h
    rw [hsame]
    exact hip

theorem rpeekUnder (n : Nat) : Overlies (rpeekUnder n : Act σ Cell) := by
  constructor
  · intro m t v h low c b
    rw [Machine.rpeekUnder, onReturn_eq] at h ⊢
    unfold Stack.peekUnder Stack.under? at h ⊢
    by_cases hn : n < m.ret.cells.size
    · rw [if_pos hn] at h
      cases hv : m.ret.cells[m.ret.cells.size - 1 - n]? with
      | none => rw [hv] at h; cases h
      | some w =>
        rw [hv] at h
        cases h
        have hsize : (m.upon low c b).ret.cells.size = low.size + m.ret.cells.size := Array.size_append
        have hv' : (m.upon low c b).ret.cells[(m.upon low c b).ret.cells.size - 1 - n]? = some v := by
          rw [← hv, hsize]
          show (low ++ m.ret.cells)[_]? = _
          rw [Array.getElem?_append_right (by omega)]
          congr 1
          omega
        rw [if_pos (by omega), hv']
    · rw [if_neg hn] at h
      cases h
  · intro m t v h hip
    have hsame :=
      (keeps_rpeekUnder (R := fun m t : Machine σ => t.ip = m.ip) ⟨fun _ => rfl,
          fun h g => g.trans h⟩ n).of_ok h
    rw [hsame]
    exact hip

theorem address (v : Cell) : Overlies (address v : Act σ Nat) := by
  unfold Machine.address
  split
  · exact pure _
  · exact throw _

theorem cell (a : Nat) : Overlies (cell a : Act σ Cell) := by
  unfold Machine.cell
  split
  · exact pure _
  · exact throw _

theorem count (v : Cell) (f : Fault) : Overlies (count v f : Act σ Nat) := by
  unfold Machine.count
  split
  · exact pure _
  · exact throw _

theorem setIp (a : Nat) : Overlies (setIp (some a) : Act σ Unit) :=
  ⟨fun h low c b => by cases h; rfl, fun h _ => by cases h; rfl⟩

theorem getIp : Overlies (getIp : Act σ Nat) := by
  constructor
  · intro m t a h low c b
    cases hip : m.ip with
    | none =>
      rw [getIp_of_none hip] at h
      cases h
    | some _ =>
      rw [getIp_of_some hip] at h
      cases h
      exact getIp_of_some (m := m.upon low c b) hip
  · intro m t a h hip
    obtain ⟨_, hsome⟩ := Option.isSome_iff_exists.mp hip
    rw [getIp_of_some hsome] at h
    cases h
    exact hip

theorem operand : Overlies (operand : Act σ Cell) :=
  getIp.bind fun _ => (onMemory _).bind fun v => (setIp _).bind fun _ => pure v

theorem jumpTo (target : Cell) : Overlies (jumpTo target : Act σ Unit) :=
  (address target).bind fun a => setIp a

theorem skipInline (n : Nat) : Overlies (skipInline n : Act σ Nat) :=
  getIp.bind fun a => (setIp _).bind fun _ => pure a

theorem closed : Closed (fun x => Overlies (σ := σ) x) where
  pure := pure
  bind := bind
  divideByZero := throw _
  push _ := onData _
  pop := onData _
  peek := onData _
  peekUnder _ := onData _
  rpeek := rpeek
  rpeekUnder := rpeekUnder
  address := address
  cell := cell
  count v := count v _
  fetchCell _ := onMemory _
  fetchByte _ := onMemory _
  fetchBytes _ _ := onMemory _
  allot _ := onMemory _
  bumpCell _ := onMemory _
  bumpBytes _ := onMemory _
  write _ := onOutput _
  writeBytes _ := onOutput _
  print _ := onOutput _
  depth hf :=
    ⟨fun {m} {_} {_} h low c b => (hf m.data.depth).upon h low c b,
     fun {m} {_} {_} h hip => (hf m.data.depth).running h hip⟩
  here hf :=
    ⟨fun {m} {_} {_} h low c b => (hf m.memory.here).upon h low c b,
     fun {m} {_} {_} h hip => (hf m.memory.here).running h hip⟩

theorem inlineString : Overlies (Primitive.inlineString : Act σ (Nat × Nat)) :=
  operand.bind fun v => (count v _).bind fun n => (skipInline n).bind fun _ => pure _

theorem callNative (arity : Nat) (f : Native σ) : Overlies (callNative arity f) := by
  refine (onData _).bind fun args => (onSurface _).bind fun r => ?_
  split
  · exact onData _
  · exact pure ()

end Overlies

namespace Fits

theorem after {x : Act σ α} {f : α → Act σ β} (hx : Overlies x) (hf : ∀ a, Fits (f a)) : Fits (x >>= f) := by
  constructor
  · intro m t b h low c base hroom
    obtain ⟨a, m₁, h₁, h₂⟩ := bind_ok_iff.mp h
    rw [bind_of_ok (hx.upon h₁ low c base)]
    exact (hf a).upon h₂ low c base hroom
  · intro m t b h hip
    obtain ⟨a, m₁, h₁, h₂⟩ := bind_ok_iff.mp h
    exact (hf a).running h₂ (hx.running h₁ hip)

/-- What follows takes no cell away, so there is room in between if there is at the end. -/
theorem bind {x : Act σ α} {f : α → Act σ β} (hx : Fits x) (hf : ∀ a, Fits (f a))
    (hdepth : ∀ a m b t, f a m = .ok b t → m.ret.depth ≤ t.ret.depth) : Fits (x >>= f) := by
  constructor
  · intro m t b h low c base hroom
    obtain ⟨a, m₁, h₁, h₂⟩ := bind_ok_iff.mp h
    have hle := hdepth a m₁ b t h₂
    rw [bind_of_ok (hx.upon h₁ low c base (by omega))]
    exact (hf a).upon h₂ low c base hroom
  · intro m t b h hip
    obtain ⟨a, m₁, h₁, h₂⟩ := bind_ok_iff.mp h
    exact (hf a).running h₂ (hx.running h₁ hip)

theorem rpush (v : Cell) : Fits (rpush v : Act σ Unit) := by
  constructor
  · intro m t a h low c b hroom
    rw [rpush_ok h, show ({ m with ret := m.ret.pushed v } : Machine σ).ret.depth = m.ret.depth + 1
        from Stack.depth_pushed ..] at *
    have hlt : (m.upon low c b).ret.depth < (m.upon low c b).ret.capacity := by
      rw [depth_upon]
      exact hroom
    rw [Machine.rpush, onReturn_eq, Stack.push_of_lt hlt]
    simp [Machine.upon, Stack.pushed]
  · intro m t a h hip
    rw [rpush_ok h]
    exact hip

theorem depth_rpush {v : Cell} {m t : Machine σ} {a : Unit} (h : Machine.rpush v m = .ok a t) :
    m.ret.depth ≤ t.ret.depth := by
  rw [rpush_ok h]
  exact Nat.le_trans (Nat.le_succ _) (Nat.le_of_eq (Stack.depth_pushed m.ret v).symm)

theorem depth_jumpTo {target : Cell} {m t : Machine σ} {a : Unit} (h : Machine.jumpTo target m = .ok a t) :
    m.ret.depth ≤ t.ret.depth := by
  obtain ⟨a, m₁, haddr, hip⟩ := bind_ok_iff.mp h
  rw [(address_ok haddr).2] at hip
  cases hip
  exact Nat.le_refl _

theorem advanceLoop (step : Cell) : Fits (Primitive.advanceLoop step : Act σ Unit) := by
  refine after .operand fun body => after .rpop fun index => after .rpeek fun limit => ?_
  split
  · exact (Overlies.closed.discard .rpop).fits
  · exact bind (rpush _) (fun _ => (Overlies.jumpTo body).fits) fun _ _ _ _ h => depth_jumpTo h

/-- Every instruction but the one that returns. -/
theorem run {p : Primitive} (hp : p ≠ .exit) : Fits (p.run : Act σ Unit) := by
  have hc := Overlies.closed (σ := σ)
  cases p
  case exit => exact absurd rfl hp
  case literal => exact (Overlies.operand.bind fun _ => .onData _).fits
  case jump => exact (Overlies.operand.bind fun v => .jumpTo v).fits
  case jumpIfZero =>
    refine (Overlies.operand.bind fun target => (Overlies.onData _).bind fun v => ?_).fits
    split
    · exact .jumpTo target
    · exact .pure ()
  case enterLoop =>
    exact after (.onData _) fun start => after (.onData _) fun limit =>
      bind (rpush limit) (fun _ => rpush start) fun _ _ _ _ h => depth_rpush h
  case loop => exact advanceLoop 1
  case plusLoop => exact after (.onData _) fun v => advanceLoop v
  case stringLiteral => exact (Overlies.inlineString.bind fun _ => (Overlies.cell _).bind fun _ =>
      (Overlies.onData _).bind fun _ => .onData _).fits
  case printString => exact (Overlies.inlineString.bind fun s => hc.printBytes s.1 s.2).fits
  case toReturn => exact after (.onData _) fun v => rpush v
  case fromReturn => exact (Overlies.rpop.bind fun _ => .onData _).fits
  case unloop => exact ((hc.discard .rpop).bind fun _ => hc.discard .rpop).fits
  case store | storeByte | addStore =>
    exact (hc.storing ⟨fun _ _ => .onMemory _, fun _ _ => .onMemory _⟩ rfl).fits
  all_goals exact (hc.plain rfl rfl rfl).fits

end Fits

end Act

/-! ## A step upon other cells -/

namespace Machine

variable {m t : Machine σ}

/-- A call, inside a run, keeps its return address upon whatever lies there. -/
theorem call_upon {entry : Nat} (hip : m.ip.isSome = true) (h : call entry m = .ok () t) :
    t.ip.isSome = true ∧
    ∀ low c b, low.size + t.ret.depth ≤ c → call entry (m.upon low c b) = .ok () (t.upon low c b) := by
  obtain ⟨a, ha⟩ := Option.isSome_iff_exists.mp hip
  have hfits : Act.Fits (cell a >>= fun v => rpush v >>= fun _ => setIp (some entry) : Act σ Unit) := by
    refine .after (.cell a) fun v => .bind (.rpush v) (fun _ => (Act.Overlies.setIp entry).fits) ?_
    intro _ _ _ _ h
    cases h
    exact Nat.le_refl _
  rw [call_of_some entry ha] at h
  refine ⟨hfits.running h hip, fun low c b hroom => ?_⟩
  rw [call_of_some (m := m.upon low c b) entry ha]
  exact hfits.upon h low c b hroom

/-- A return that finds a cell of its own goes where that says. -/
theorem leave_upon (hbase : m.base = 0) (hdepth : 0 < m.ret.depth) (h : leave m = .ok () t)
    (hip : m.ip.isSome = true) :
    t.ip.isSome = true ∧ ∀ low c b, b ≤ low.size → leave (m.upon low c b) = .ok () (t.upon low c b) := by
  have hgo : Act.Overlies (rpop >>= jumpTo : Act σ Unit) := .bind .rpop fun v => .jumpTo v
  rw [leave_of_lt (by omega)] at h
  refine ⟨hgo.running h hip, fun low c b hb => ?_⟩
  have hlt : (m.upon low c b).base < (m.upon low c b).ret.depth := by
    rw [depth_upon]
    show b < _
    omega
  rw [leave_of_lt hlt]
  exact hgo.upon h low c b

end Machine

namespace Dictionary

open Machine

variable {d : Dictionary σ} {m t : Machine σ}

/-- A run that goes through consists of steps. -/
theorem Steps.of_runFor {n : Nat} (h : d.runFor n m = .ok () t) : ∃ k ≤ n, d.Steps k m t := by
  induction n generalizing m with
  | zero =>
    cases h
    exact ⟨0, Nat.le_refl 0, .zero _⟩
  | succ n ih =>
    cases hip : m.ip with
    | none =>
      rw [d.runFor_of_ip_none hip] at h
      cases h
      exact ⟨0, Nat.zero_le _, .zero _⟩
    | some a =>
      have hsome : m.ip.isSome = true := by rw [hip]; rfl
      rw [d.runFor_succ hsome] at h
      obtain ⟨_, m₁, hstep, hrest⟩ := bind_ok_iff.mp h
      obtain ⟨k, hk, hsteps⟩ := ih hrest
      exact ⟨k + 1, Nat.succ_le_succ hk, .succ hsome hstep hsteps⟩

/-- No run goes on behind its end. -/
theorem Steps.le_of_ended {k n : Nat} {m' : Machine σ} (hk : d.Steps k m m') (hn : d.Steps n m t)
    (hend : t.ip = none) : k ≤ n := by
  induction hk generalizing n with
  | zero => exact Nat.zero_le n
  | succ hip hstep _ ih =>
    cases hn with
    | zero =>
      rw [hend] at hip
      cases hip
    | succ _ hstep' hrest =>
      rw [hstep] at hstep'
      cases hstep'
      exact Nat.succ_le_succ (ih hrest)

/-- Whether the next instruction reads or takes a cell of the return stack below depth `r`: then
    it cannot do without them. -/
def digs (d : Dictionary σ) (r : Nat) (m : Machine σ) : Bool := !succeeds d.step (m.above r)

/-- What an instruction does, inside a run, when more cells lie below those it has: the same,
    if there is room, or it returns and has none left. -/
inductive Lifts (d : Dictionary σ) (m t : Machine σ) : Prop
  | same : t.ip.isSome = true →
    (∀ low c b, b ≤ low.size → low.size + t.ret.depth ≤ c → d.step (m.upon low c b) =
      .ok () (t.upon low c b)) → Lifts d m t
  | returns (m' : Machine σ) :
      m'.ret.depth = 0 → (∀ low c b, d.step (m.upon low c b) = leave (m'.upon low c b)) → Lifts d m t

/-- Every instruction does. -/
theorem step_lifts (hd : d.All Kind.IsPublic) (hbase : m.base = 0) (hip : m.ip.isSome = true)
    (h : d.step m = .ok () t) : d.Lifts m t := by
  obtain ⟨a, ha⟩ := Option.isSome_iff_exists.mp hip
  rw [d.step_of_some ha] at h
  obtain ⟨v, m₁, hfetch, h⟩ := bind_ok_iff.mp h
  obtain ⟨_, m₂, hset, h⟩ := bind_ok_iff.mp h
  obtain ⟨xt, m₃, hcount, h⟩ := bind_ok_iff.mp h
  have hnext (low : Array Cell) (c b : Nat) : d.step (m.upon low c b) = d.perform xt (m₃.upon low c b) := by
    rw [d.step_of_some (m := m.upon low c b) ha, bind_of_ok ((Act.Overlies.onMemory _).upon hfetch low c b),
      bind_of_ok ((Act.Overlies.setIp _).upon hset low c b),
      bind_of_ok ((Act.Overlies.count v _).upon hcount low c b)]
  have hip₃ : m₃.ip.isSome = true :=
    (Act.Overlies.count v _).running hcount ((Act.Overlies.setIp _).running hset
    ((Act.Overlies.onMemory _).running hfetch hip))
  have hbase₃ : m₃.base = 0 := by
    have hkeeps := Machine.keeps_count (R := fun m t : Machine σ => t.base = m.base) ⟨fun _ => rfl,
        fun h g => g.trans h⟩ v (.badToken v)
    rw [hkeeps.of_ok hcount]
    cases hset
    obtain ⟨_, -, rfl⟩ := onMemory_ok hfetch
    exact hbase
  have hfits {x : Act σ Unit} (hx : Act.Fits x) (hperform : d.perform xt = x) : d.Lifts m t := by
    rw [hperform] at h
    refine .same (hx.running h hip₃) fun low c b _ hroom => ?_
    rw [hnext, hperform]
    exact hx.upon h low c b hroom
  cases he : d.get? xt with
  | none =>
    rw [perform, he] at h
    cases h
  | some e =>
    have hperform : d.perform xt = e.kind.perform := by rw [perform, he]
    have hpublic := hd xt e he
    cases hk : e.kind with
    | hook act => rw [hk] at hpublic; exact hpublic.elim
    | native arity f => exact hfits (Act.Overlies.callNative arity f).fits (by rw [hperform, hk]; rfl)
    | constant v => exact hfits (Act.Overlies.onData _).fits (by rw [hperform, hk]; rfl)
    | compiled entry =>
      have hcall : d.perform xt = call entry := by rw [hperform, hk]; rfl
      rw [hcall] at h
      obtain ⟨hrunning, hsame⟩ := call_upon hip₃ h
      refine .same hrunning fun low c b _ hroom => ?_
      rw [hnext, hcall]
      exact hsame low c b hroom
    | builtin p =>
      have hrun : d.perform xt = p.run := by rw [hperform, hk]; rfl
      by_cases hp : p = .exit
      · have hleave : d.perform xt = leave := by rw [hrun, hp]; rfl
        rw [hleave] at h
        by_cases hdepth : 0 < m₃.ret.depth
        · obtain ⟨hrunning, hsame⟩ := leave_upon hbase₃ hdepth h hip₃
          refine .same hrunning fun low c b hb _ => ?_
          rw [hnext, hleave]
          exact hsame low c b hb
        · exact .returns m₃ (by omega) fun low c b => by rw [hnext, hleave]
      · exact hfits (.run hp) hrun

/-- The last return of code called from outside ends the run; of code called inside one, it goes
    on behind the call. -/
theorem returns_upon {m' : Machine σ} (hdepth : m'.ret.depth = 0) (low : Array Cell) (c : Nat)
    {b p : Nat} (hb : b ≤ low.size) (hp : p ≤ Cell.maxNat) :
    leave (m'.upon low c low.size) = .ok () ((m'.upon low c low.size).placed none low.size) ∧
      leave (m'.upon (low.push (Int32.ofNat p)) c b) =
        .ok () ((m'.upon low c low.size).placed (some p) b) := by
  have hcells : m'.ret.cells = #[] := Array.size_eq_zero_iff.mp hdepth
  constructor
  · have hle : (m'.upon low c low.size).ret.depth ≤ (m'.upon low c low.size).base := by
      rw [depth_upon, hdepth]
      exact Nat.le_refl _
    rw [leave_of_le hle]
    rfl
  · have hret : (m'.upon (low.push (Int32.ofNat p)) c b).ret =
        (m'.upon low c low.size).ret.pushed (Int32.ofNat p) := by
      simp [upon, Stack.pushed, hcells]
    have hle : b ≤ (m'.upon low c low.size).ret.depth := by
      rw [depth_upon]
      omega
    exact leave_pushed hret hp hle m'.ip

/-- Code that ends when it is called from outside does the same instructions when a call inside a
    run has put a return address below its own cells, and then goes on at that address. -/
theorem steps_nested (hd : d.All Kind.IsPublic) {low : Array Cell} {c b p n : Nat} (hb : b ≤ low.size)
    (hp : p ≤ Cell.maxNat)
    (hip : m.ip.isSome = true) (hsteps : d.Steps n (m.upon low c low.size) t) (hend : t.ip = none)
    (habove : ∀ k m', d.Steps k (m.upon low c low.size) m' → m'.ip.isSome = true → d.digs low.size m' = false)
    (hroom : ∀ k m', d.Steps k (m.upon low c low.size) m' → m'.ret.depth < m'.ret.capacity) :
    d.Steps n (m.upon (low.push (Int32.ofNat p)) c b) (t.placed (some p) b) := by
  induction n generalizing m with
  | zero =>
    cases hsteps
    rw [show m.ip = none from hend] at hip
    cases hip
  | succ n ih =>
    obtain _ | ⟨-, hstep, hrest⟩ := hsteps
    next m₁ =>
    have hroom₀ : low.size + m.ret.depth < c := by
      have := hroom 0 _ (.zero _)
      rwa [depth_upon] at this
    -- The instruction goes through on the cells of the code alone, and leaves no more than have room.
    have hdigs := habove 0 _ (.zero _) hip
    rw [digs, above_upon, Bool.not_eq_false'] at hdigs
    have hcut := ok_of_succeeds hdigs
    generalize stateAfter d.step (m.upon #[] (c - low.size) 0) = t₁ at hcut
    have hfull : low.size + t₁.ret.depth ≤ c := by
      have hmoves := ((works_step hd).of_ok hcut).ret
      have hin := hmoves.inside (by rw [depth_upon]; show 0 + m.ret.depth ≤ c - low.size; omega)
      rw [hmoves.capacity] at hin
      have hle : t₁.ret.depth ≤ c - low.size := hin
      omega
    cases step_lifts (m := m.upon #[] (c - low.size) 0) hd rfl hip hcut with
    | same hip₁ hsame =>
      have htop := hsame low c low.size (Nat.le_refl _) hfull
      rw [upon_empty_upon, hstep] at htop
      obtain rfl : m₁ = t₁.upon low c low.size := by injection htop
      have hroom₁ : low.size + t₁.ret.depth < c := by
        have := hroom 1 _ (.succ hip hstep (.zero _))
        rwa [depth_upon] at this
      have hnested :=
        hsame (low.push (Int32.ofNat p)) c b (by rw [Array.size_push]; omega) (by rw [Array.size_push]; omega)
      rw [upon_empty_upon] at hnested
      refine .succ hip hnested (ih hip₁ hrest ?_ ?_)
      · exact fun k m' h => habove (k + 1) m' (.succ hip hstep h)
      · exact fun k m' h => hroom (k + 1) m' (.succ hip hstep h)
    | returns m' hdepth hleave =>
      obtain ⟨htop, hnested⟩ := returns_upon hdepth low c hb hp
      rw [← hleave, upon_empty_upon, hstep] at htop
      rw [← hleave, upon_empty_upon] at hnested
      obtain rfl : m₁ = (m'.upon low c low.size).placed none low.size := by injection htop
      cases hrest with
      | zero => exact .succ hip hnested (.zero _)
      | succ hgoes => cases hgoes

end Dictionary

/-! ## Calls -/

namespace Engine

open Machine Dictionary

theorem execute_inside {fuel xt entry a : Nat} {s : Engine σ} {e : Entry σ} (he : s.dict.get? xt = some e)
    (hk : e.kind = .compiled entry) (hip : s.machine.ip = some a) :
    execute fuel xt s = onMachine (call entry) s := by
  have hperform : s.dict.perform xt = call entry := by
    rw [Dictionary.perform, he]; show e.kind.perform = _; rw [hk]; rfl
  obtain ⟨name, kind, hidden⟩ := e
  cases hk
  rw [execute, bind_of_ok (get_apply s), bind_of_ok (get_apply s), he, hip, ← hperform]

theorem launched_eq_upon (s : Engine σ) (entry : Nat) : s.launched entry =
    (s.machine.entering entry).upon s.machine.ret.cells s.machine.ret.capacity s.machine.ret.cells.size := by
  simp [launched, Machine.placed, upon, entering, Stack.depth]

/-- A word called inside a run, at the address `p` to go on at, does what it does when it is called
    from outside, in as many instructions, and the run goes on at `p`; unless it needs cells of the
    return stack that were there before it, or there is no room for one cell more. -/
theorem nested_call_agrees {s s' : Engine σ} {fuel xt entry p base : Nat} {e : Entry σ}
    (hd : s.dict.All Kind.IsPublic)
    (hcapacity : s.machine.memory.capacity ≤ Cell.maxNat) (hbudget : s.budget = none)
    (hip : s.machine.ip = none)
    (he : s.dict.get? xt = some e) (hk : e.kind = .compiled entry) (hrun : execute fuel xt s = .ok () s')
    (habove : ∀ k m, s.dict.Steps k (s.launched entry) m → m.ip.isSome = true →
      s.dict.digs s.machine.ret.depth m = false)
    (hroom : ∀ k m, s.dict.Steps k (s.launched entry) m → m.ret.depth < m.ret.capacity)
    (hp : p ≤ s.machine.memory.capacity) (hbase : base ≤ s.machine.ret.depth) :
    ∃ n m, s.dict.Steps n (s.launched entry) s'.machine ∧
      execute fuel xt { s with machine := s.machine.placed (some p) base } = .ok () { s with machine := m } ∧
      s.dict.Steps n m (s'.machine.placed (some p) base) := by
  have hmax : p ≤ Cell.maxNat := Nat.le_trans hp hcapacity
  rw [execute_compiled he hk hip] at hrun
  obtain ⟨m', hrunFor, hend, rfl⟩ := (runCode_ok_iff hbudget fuel entry).mp hrun
  obtain ⟨n, -, hsteps⟩ : ∃ n ≤ fuel, s.dict.Steps n (s.launched entry) m' := Steps.of_runFor hrunFor
  have hcall := call_of_lt s.machine entry base hmax (hroom 0 (s.launched entry) (.zero _))
  have hnested : execute fuel xt { s with machine := s.machine.placed (some p) base } =
      .ok () { s with
        machine := (s.machine.entering entry).upon (s.machine.ret.cells.push (Int32.ofNat p))
          s.machine.ret.capacity base } := by
    refine (execute_inside (s := { s with machine := s.machine.placed (some p) base }) he hk rfl).trans ?_
    rw [onMachine_eq, hcall]
    simp [upon, entering, Machine.placed, Stack.pushed]
  refine ⟨n, _, hsteps, hnested, ?_⟩
  rw [launched_eq_upon] at hsteps habove hroom
  exact steps_nested hd hbase hmax rfl hsteps hend habove hroom

/-- The words `keep`, which puts a cell on the return stack and takes it back, and `relay`, which
    calls it with what a word of the host returns. -/
def relayText : List Phrase :=
  let place : Location := ⟨"relay", 1, 1⟩
  [.define .colon ⟨":", place⟩ (some "keep"), .word ⟨">r", place⟩, .word ⟨"r>", place⟩,
   .control .semicolon ⟨";", place⟩,
   .define .colon ⟨":", place⟩ (some "relay"), .word ⟨"1", place⟩, .word ⟨"echo", place⟩,
   .word ⟨"keep", place⟩, .control .semicolon ⟨";", place⟩]

def relaying : Engine Unit :=
  stateAfter (feedAll 0 relayText >>= fun _ => finish) (stateAfter echo.act patient)

/-- The seven instructions of `relay`, each on cells of its own. -/
theorem runFor_relay :
    succeeds (feedAll 0 relayText >>= fun _ => finish) (stateAfter echo.act patient) = true ∧
    relaying.budget = none ∧ relaying.dict.entry? "relay" = some 12 ∧ relaying.machine.ret.depth = 0 ∧
    succeeds (relaying.dict.runFor 7) (relaying.launched 12) = true ∧
    (stateAfter (relaying.dict.runFor 7) (relaying.launched 12)).ip = none ∧
    ∀ k < 8, (stateAfter (relaying.dict.runFor k) (relaying.launched 12)).ret.depth <
        (stateAfter (relaying.dict.runFor k) (relaying.launched 12)).ret.capacity ∧
      relaying.dict.digs 0 (stateAfter (relaying.dict.runFor k) (relaying.launched 12)) = false := by
  decide +kernel

theorem nested_call_agrees_relay : ∃ xt, relaying.dict.find? "relay" = some xt ∧
    ∃ s', execute 7 xt relaying = .ok () s' ∧ ∃ n m, relaying.dict.Steps n (relaying.launched 12) s'.machine ∧
      execute 7 xt { relaying with machine := relaying.machine.placed (some 40) 0 } =
        .ok () { relaying with machine := m } ∧
      relaying.dict.Steps n m (s'.machine.placed (some 40) 0) := by
  obtain ⟨hrelay, hbudget, hentry, hdepth, hok, hend, hclear⟩ := runFor_relay
  have hpatient : patient.Stable { stepBudget := none } := new_stable_words { stepBudget := none } () true
  obtain ⟨⟨⟨hechoing, -, -⟩, hrests⟩, -⟩ := request_evolves hpatient rfl echo
  have hread : (feedAll 0 relayText >>= fun _ => finish) (stateAfter echo.act patient) = .ok () relaying :=
    ok_of_succeeds hrelay
  obtain ⟨⟨hstable, -, -⟩, hip⟩ := reading_ok_evolves hechoing hrests hread
  obtain ⟨xt, e, hfind, he, hk⟩ := Dictionary.entry?_eq_some hentry
  have hrun :=
    (execute_compiled he hk hip).trans ((runCode_ok_iff hbudget 7 12).mpr ⟨_, ok_of_succeeds hok, hend, rfl⟩)
  obtain ⟨n, hn, hsteps⟩ := Dictionary.Steps.of_runFor (ok_of_succeeds hok)
  have hstate (k : Nat) (m : Machine Unit) (h : relaying.dict.Steps k (relaying.launched 12) m) :
      m.ret.depth < m.ret.capacity ∧ relaying.dict.digs 0 m = false := by
    have hk := h.le_of_ended hsteps hend
    have := hclear k (by omega)
    rwa [stateAfter_ok h.runFor_eq] at this
  refine ⟨xt, hfind, _, hrun,
      nested_call_agrees hstable.dict.isPublic hstable.machine.valid.capacity_le hbudget hip he hk hrun
    (fun k m h _ => ?_) (fun k m h => (hstate k m h).1) ?_ (Nat.zero_le _)⟩
  · rw [hdepth]
    exact (hstate k m h).2
  · rw [hstable.machine.memoryCapacity]
    decide

end Engine

end Handheld
