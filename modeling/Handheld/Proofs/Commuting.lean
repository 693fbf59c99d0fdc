/-
  Handheld.Proofs.Commuting — running code on a machine that is changed where the code does not look.

  A change that leaves the stacks, the memory and the place alone (`Machine.Outlying`) makes no
  difference to what moves the instruction pointer, and none to a run whose words do not notice
  it: one step commutes with it (`Dictionary.commutes_step`), and so does a run of any length.
-/

import Handheld.Proofs.Stepping

namespace Handheld

variable {σ ι α : Type} {Φ : ι → Machine σ → Machine σ}

/-- Changes that leave the stacks, the memory and the place of the machine alone. -/
structure Machine.Outlying (Φ : ι → Machine σ → Machine σ) : Prop where
  data (i : ι) (m : Machine σ) (s : Stack) : Φ i { m with data := s } = { Φ i m with data := s }
  ret (i : ι) (m : Machine σ) (s : Stack) : Φ i { m with ret := s } = { Φ i m with ret := s }
  memory (i : ι) (m : Machine σ) (s : Memory) : Φ i { m with memory := s } = { Φ i m with memory := s }
  ip (i : ι) (m : Machine σ) (ip : Option Nat) : Φ i { m with ip := ip } = { Φ i m with ip := ip }
  base (i : ι) (m : Machine σ) (base : Nat) : Φ i { m with base := base } = { Φ i m with base := base }

namespace Machine.Outlying

variable (h : Outlying Φ)

include h

theorem data_eq (i : ι) (m : Machine σ) : (Φ i m).data = m.data :=
  (congrArg Machine.data (h.data i m m.data) :)

theorem depth_eq (i : ι) (m : Machine σ) : (Φ i m).ret.depth = m.ret.depth :=
  (congrArg (fun m => m.ret.depth) (h.ret i m m.ret) :)

theorem memory_eq (i : ι) (m : Machine σ) : (Φ i m).memory = m.memory :=
  (congrArg Machine.memory (h.memory i m m.memory) :)

theorem ip_eq (i : ι) (m : Machine σ) : (Φ i m).ip = m.ip := (congrArg Machine.ip (h.ip i m m.ip) :)

theorem base_eq (i : ι) (m : Machine σ) : (Φ i m).base = m.base :=
  (congrArg Machine.base (h.base i m m.base) :)

/-- Code begins at the same place. -/
theorem start (entry : Nat) : Act.Commutes Φ (start entry) := by
  intro i m
  have hstart (n : Machine σ) :
      Machine.start entry n = .ok () { n with ip := some entry, base := n.ret.depth } := rfl
  have hplace := h.base i { m with ip := some entry } m.ret.depth
  rw [h.ip i m (some entry)] at hplace
  rw [hstart, hstart, h.depth_eq]
  exact congrArg (EStateM.Result.ok ()) hplace.symm

end Machine.Outlying

namespace Act.Commutes

open Machine

section

variable (h : Outlying Φ)

include h

theorem setIp (ip : Option Nat) : Commutes Φ (setIp ip) :=
  fun i m => congrArg (EStateM.Result.ok ()) (h.ip i m ip).symm

theorem getIp : Commutes Φ getIp := by
  intro i m
  cases hip : m.ip with
  | none => rw [getIp_of_none hip, getIp_of_none ((h.ip_eq i m).trans hip)]; rfl
  | some a => rw [getIp_of_some hip, getIp_of_some ((h.ip_eq i m).trans hip)]; rfl

theorem jumpTo (target : Cell) : Commutes Φ (jumpTo target) := (address target).bind fun _ => setIp h _

theorem leave : Commutes Φ leave := by
  intro i m
  have hdepth := h.depth_eq i m
  have hbase := h.base_eq i m
  rcases Nat.lt_or_ge m.base m.ret.depth with hlt | hle
  · rw [leave_of_lt hlt, leave_of_lt (by rw [hbase, hdepth]; exact hlt)]
    exact (onReturn h.ret _).bind (jumpTo h) i m
  · rw [leave_of_le hle, leave_of_le (by rw [hbase, hdepth]; exact hle)]
    exact setIp h none i m

theorem call (entry : Nat) : Commutes Φ (call entry) := by
  intro i m
  cases hip : m.ip with
  | none =>
    rw [call_of_none entry hip, call_of_none entry ((h.ip_eq i m).trans hip)]
    exact h.start entry i m
  | some a =>
    rw [call_of_some entry hip, call_of_some entry ((h.ip_eq i m).trans hip)]
    exact (cell a).bind (fun v => (onReturn h.ret (Stack.push v)).bind fun _ => setIp h _) i m

theorem steering : Act.Steering (fun x => Commutes Φ x) where
  rpush _ := onReturn h.ret _
  rpop := onReturn h.ret _
  operand := (getIp h).bind fun _ => (onMemory h.memory _).bind fun _ => (setIp h _).bind fun _ => pure _
  jumpTo := jumpTo h
  skipInline _ := (getIp h).bind fun _ => (setIp h _).bind fun _ => pure _
  missingOperand v := count v _
  leave := leave h

theorem quiet : Act.Quiet (fun x => Commutes Φ x) where
  pure := pure
  bind := bind
  divideByZero := throw _
  push _ := onData h.data _
  pop := onData h.data _
  peek := onData h.data _
  peekUnder _ := onData h.data _
  rpeek := onReturn h.ret _
  rpeekUnder _ := onReturn h.ret _
  address := address
  cell := cell
  count v := count v _
  fetchCell _ := onMemory h.memory _
  fetchByte _ := onMemory h.memory _
  allot _ := onMemory h.memory _
  bumpCell _ := onMemory h.memory _
  bumpBytes _ := onMemory h.memory _
  depth {β f} hf i m := by
    have hread (n : Machine σ) : (get >>= fun m => f m.data.depth : Act σ β) n = f n.data.depth n := rfl
    rw [hread, hread, h.data_eq]
    exact hf _ i m
  here {β f} hf i m := by
    have hread (n : Machine σ) : (get >>= fun m => f m.memory.here : Act σ β) n = f n.memory.here n := rfl
    rw [hread, hread, h.memory_eq]
    exact hf _ i m

/-- If the output is left alone too, no word of the program notices. -/
theorem run (houtput : ∀ i m s, Φ i { m with output := s } = { Φ i m with output := s }) (p : Primitive) :
    Commutes Φ (p.run : Act σ Unit) := by
  have hclosed : Act.Closed (fun x => Commutes Φ x) :=
    { quiet h with
      write := fun _ => onOutput houtput _
      writeBytes := fun _ => onOutput houtput _
      print := fun _ => onOutput houtput _
      fetchBytes := fun _ _ => onMemory h.memory _ }
  refine hclosed.run p (fun _ => steering h) (fun _ => (steering h).toReturning) fun _ => ?_
  exact ⟨fun _ _ => onMemory h.memory _, fun _ _ => onMemory h.memory _⟩

theorem callNative (arity : Nat) {f : Native σ} (hf : ∀ args, Commutes Φ (onSurface (f args))) :
    Commutes Φ (callNative arity f) := by
  refine bind (onData h.data _) fun args => bind (hf args) fun r => ?_
  split
  · exact onData h.data _
  · exact pure ()

end

end Act.Commutes

namespace Dictionary

open Act

variable {d : Dictionary σ} (h : Machine.Outlying Φ) (hd : ∀ xt, Commutes Φ (d.perform xt))

include h hd

theorem commutes_step : Commutes Φ d.step := by
  intro i m
  cases hip : m.ip with
  | none => rw [d.step_of_none hip, d.step_of_none ((h.ip_eq i m).trans hip)]; rfl
  | some a =>
    rw [d.step_of_some hip, d.step_of_some ((h.ip_eq i m).trans hip)]
    refine Commutes.bind (.onMemory h.memory _) (fun v => ?_) i m
    exact (Commutes.setIp h _).bind fun _ => (Commutes.count v _).bind hd

theorem commutes_runFor (n : Nat) : Commutes Φ (d.runFor n) := by
  induction n with
  | zero => exact .pure ()
  | succ n ih =>
    intro i m
    cases hip : m.ip with
    | none => rw [d.runFor_of_ip_none hip, d.runFor_of_ip_none ((h.ip_eq i m).trans hip)]; rfl
    | some a =>
      have hsome : m.ip.isSome = true := by rw [hip]; rfl
      rw [d.runFor_succ hsome, d.runFor_succ (by rw [h.ip_eq]; exact hsome)]
      exact (commutes_step h hd).bind (fun _ => ih) i m

end Dictionary

end Handheld
