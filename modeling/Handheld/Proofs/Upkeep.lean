/-
  Handheld.Proofs.Upkeep — what every word keeps, every call keeps.

  A relation that looks at the host and at the size of the output only (`Machine.Heedless`) holds
  across every instruction of the engine itself. If it holds across the host's words too, it
  holds across a step, a run, a phrase and a whole text, however they end: the words that a text
  adds to the dictionary are again such words (`Engine.Upholds`).

  So the output of a session stays within its capacity if the natives that the host registers leave
  it there (`Engine.upholds_after`). With what holds whatever they do, `Engine.session_orderly` says
  what a host finds after each of its calls.
-/

import Handheld.Proofs.Budget

namespace Handheld

variable {σ : Type} {R : Machine σ → Machine σ → Prop} {P : Kind σ → Prop}

/-- A relation between machines that allows any change of the stacks, the memory and the place,
    and more output. -/
structure Machine.Heedless (R : Machine σ → Machine σ → Prop) : Prop extends Ordered R where
  inside (m : Machine σ) (data ret : Stack) (memory : Memory) (ip : Option Nat) (base : Nat) :
    R m { m with data := data, ret := ret, memory := memory, ip := ip, base := base }
  output (m : Machine σ) (o : Output) : m.output.Grows o → R m { m with output := o }

namespace Machine.Heedless

variable (h : Heedless R)

include h

theorem partWise : PartWise R where
  toOrdered := h.toOrdered
  data m s _ := h.inside m s m.ret m.memory m.ip m.base
  output := h.output
  memory m s _ := h.inside m m.data m.ret s m.ip m.base

theorem run (p : Primitive) : Keeps R (p.run : Act σ Unit) := by
  have hsteering : Act.Steering (fun x => Keeps R x) :=
    steering_keeps h.toOrdered (fun m s _ => h.inside m m.data s m.memory m.ip m.base)
      fun m ip => h.inside m m.data m.ret m.memory ip m.base
  refine h.partWise.closed.run p (fun _ => hsteering) (fun _ => hsteering.toReturning) fun _ => ?_
  exact storing_keeps h.toOrdered fun m s _ _ _ => h.inside m m.data m.ret s m.ip m.base

theorem call (entry : Nat) : Keeps R (call entry) :=
  keeps_call h.toOrdered (fun m s _ => h.inside m m.data s m.memory m.ip m.base)
    (fun m ip base => h.inside m m.data m.ret m.memory ip base) entry

end Machine.Heedless

/-- Words that keep the relation, among them all that a text can define. -/
structure Upkeep (P : Kind σ → Prop) (R : Machine σ → Machine σ → Prop) :
    Prop extends Machine.Heedless R where
  perform {k : Kind σ} : P k → Keeps R k.perform
  compiled (entry : Nat) : P (.compiled entry)
  constant (v : Cell) : P (.constant v)

namespace Upkeep

variable (h : Upkeep P R)

include h

theorem dispatch {d : Dictionary σ} (hd : d.All P) (xt : Nat) : Keeps R (d.perform xt) := by
  unfold Dictionary.perform
  split
  · next e he => exact h.perform (hd xt e he)
  · exact .throw h.toOrdered _

theorem step {d : Dictionary σ} (hd : d.All P) : Keeps R d.step := by
  have ho := h.toOrdered
  refine .bind ho (.get ho) fun m => ?_
  split
  · exact .pure ho ()
  · refine .bind ho (Machine.keeps_fetchCell ho _) fun v => ?_
    refine .bind ho (.modify fun m => h.inside m m.data m.ret m.memory _ m.base) fun _ => ?_
    exact .bind ho (Machine.keeps_count ho v _) fun xt => h.dispatch hd xt

theorem runFor {d : Dictionary σ} (hd : d.All P) (n : Nat) : Keeps R (d.runFor n) := by
  have ho := h.toOrdered
  induction n with
  | zero => exact .pure ho ()
  | succ n ih =>
    refine .bind ho (.get ho) fun m => ?_
    split
    · exact .bind ho (h.step hd) fun _ => ih
    · exact .pure ho ()

end Upkeep

namespace Engine

/-- If all words were such, they still are, and the machine is so related to what it was. -/
def Upholds (P : Kind σ → Prop) (R : Machine σ → Machine σ → Prop) (s s' : Engine σ) : Prop :=
  s.dict.All P → s'.dict.All P ∧ R s.machine s'.machine

variable (h : Upkeep P R)

include h

theorem upholds_allows : Allows (Upholds P R) R where
  refl s hd := ⟨hd, h.refl s.machine⟩
  trans hs ht hd := ⟨(ht (hs hd).1).1, h.trans (hs hd).2 (ht (hs hd).1).2⟩
  parts := h.partWise
  machine _ _ hm hd := ⟨hd, hm⟩
  constant s name v hd := ⟨hd.push name (h.constant v), h.refl s.machine⟩

theorem upholds_compilePhrase (d : Draft) (p : Phrase) : Keeps (Upholds P R) (compilePhrase d p) := by
  have hallows := upholds_allows h
  have hcompiling : Compiling (σ := σ) d 0 fun x => Keeps (Upholds P R) x :=
    { hallows.interpreting.toReading with
      storeCell := fun v _ => hallows.onMachine
        ((Machine.storing_keeps h.toOrdered fun m s _ _ _ =>
          h.inside m m.data m.ret s m.ip m.base).storeCell _ v)
      setOpened := fun _ => .modify fun s hd => ⟨hd, h.refl s.machine⟩ }
  refine hcompiling.compileAny (.modify fun s hd => ⟨hd.reveal d.xt, h.refl s.machine⟩)
      (fun _ _ => Nat.zero_le _) p

theorem upholds_openDraft (name : String) : Keeps (Upholds P R) (openDraft name) := by
  have hallows := upholds_allows h
  have ho := hallows.toOrdered
  have hi := hallows.interpreting
  refine .bind ho hi.getHere fun mark => .bind ho hi.align fun _ => .bind ho hi.getHere fun entry => ?_
  exact .modify fun s hd => ⟨hd.pushHidden name (h.compiled entry), h.refl s.machine⟩

theorem upholds_runCode (fuel entry : Nat) : Keeps (Upholds P R) (runCode fuel entry) := by
  intro s hd
  rw [stateAfter_runCode]
  refine ⟨hd, h.trans ?_ (h.runFor hd _ (s.launched entry))⟩
  exact h.inside s.machine s.machine.data s.machine.ret s.machine.memory _ _

theorem upholds_execute (fuel xt : Nat) : Keeps (Upholds P R) (execute fuel xt) := by
  intro s
  unfold stateAfter
  rcases execute_cases xt s with ⟨entry, hrun⟩ | hact
  · rw [hrun fuel s rfl rfl]
    exact upholds_runCode h fuel entry s
  · rw [hact fuel s rfl rfl]
    exact fun hd => (upholds_allows h).onMachine (h.dispatch hd xt) s hd

theorem upholds_feed (fuel : Nat) (p : Phrase) : Keeps (Upholds P R) (feed fuel p) := by
  have hallows := upholds_allows h
  refine .bind hallows.toOrdered (.get hallows.toOrdered) fun s => ?_
  cases s.mode with
  | run => exact hallows.interpreting.interpretAny (upholds_execute h fuel) (upholds_openDraft h) p
  | compile d => exact upholds_compilePhrase h d p

theorem upholds_feedAll (fuel : Nat) (ps : List Phrase) : Keeps (Upholds P R) (feedAll fuel ps) := by
  have ho := (upholds_allows h).toOrdered
  induction ps with
  | nil => exact .pure ho ()
  | cons p ps ih => exact .bind ho (upholds_feed h fuel p) fun _ => ih

theorem upholds_finish : Keeps (Upholds P R) finish := by
  have ho := (upholds_allows h).toOrdered
  refine .bind ho (.get ho) fun s => ?_
  cases s.mode with
  | run => exact .pure ho ()
  | compile d => exact .throw ho _

theorem upholds_recover (s : Engine σ) : Upholds P R s s.recover := by
  intro hd
  obtain ⟨dict, machine, mode, budget⟩ := s
  cases mode with
  | run => exact ⟨hd, h.inside machine _ _ _ _ _⟩
  | compile d => exact ⟨hd.truncate d.xt, h.inside machine _ _ _ _ _⟩

theorem upholds_recovering {act : Session σ Unit} (ha : Keeps (Upholds P R) act) :
    Keeps (Upholds P R) (recovering act) := by
  intro s
  have hs := ha s
  unfold stateAfter at hs ⊢
  rw [recovering_eq]
  cases he : act s with
  | ok _ t => rw [he] at hs; exact hs
  | error e t => rw [he] at hs; exact (upholds_allows h).trans hs (upholds_recover h t)

/-- However a text ends, it keeps what its words keep. -/
theorem upholds_interpret (fuel : Nat) (label text : String) :
    Keeps (Upholds P R) (interpret fuel label text) :=
  upholds_recovering h (.bind (upholds_allows h).toOrdered (upholds_feedAll h fuel _) fun _ =>
      upholds_finish h)

theorem upholds_callAddress (fuel a : Nat) : Keeps (Upholds P R) (callAddress fuel a) :=
  upholds_recovering h (upholds_runCode h fuel a)

theorem upholds_register (name : String) {kind : Kind σ} (hk : P kind) :
    Keeps (Upholds P R) (register name kind) := by
  unfold register
  split
  · exact .modify fun s hd => ⟨hd.push name hk, h.refl s.machine⟩
  · exact .throw (upholds_allows h).toOrdered _

end Engine

/-! ## The output of a session -/

/-- A native that leaves the capacity of the output as it is and never passes it, as every native
    does that only writes. -/
def Native.Fair (f : Native σ) : Prop :=
  ∀ args memory (surface : Surface σ), surface.output.Grows (stateAfter (f args memory) surface).output

def Kind.Fair : Kind σ → Prop
  | .hook _ => False
  | .native _ f => f.Fair
  | .builtin _ | .compiled _ | .constant _ => True

/-- The native that the request registers, if it registers one, is fair. -/
def Request.Fair : Request σ → Prop
  | .register _ _ f => f.Fair
  | .interpret _ _ _ | .call _ _ => True

namespace Native

variable {surface : Surface σ} {text : String}

theorem write_of_fits (h : surface.output.text.utf8ByteSize + text.utf8ByteSize ≤ surface.output.capacity) :
    write text surface =
      .ok () { surface with output := { surface.output with text := surface.output.text ++ text } } := by
  rw [write, Output.write, if_pos h]

theorem write_of_full (h : ¬ surface.output.text.utf8ByteSize + text.utf8ByteSize ≤ surface.output.capacity) :
    write text surface = .error (.output .full) surface := by
  rw [write, Output.write, if_neg h]

/-- A native that writes one text. -/
def writing (text : String) : Native σ := fun _ _ => write text >>= fun _ => pure none

theorem fair_writing (text : String) : (writing text : Native σ).Fair := by
  intro args memory surface
  unfold writing stateAfter
  by_cases h : surface.output.text.utf8ByteSize + text.utf8ByteSize ≤ surface.output.capacity
  · rw [bind_of_ok (write_of_fits h)]
    exact ⟨rfl, fun _ => by simpa using h⟩
  · rw [bind_of_error (write_of_full h)]
    exact Output.Grows.ordered.refl surface.output

end Native

theorem Machine.heedless_output : Heedless fun m m' : Machine σ => m.output.Grows m'.output where
  refl m := Output.Grows.ordered.refl m.output
  trans h g := Output.Grows.ordered.trans h g
  inside m _ _ _ _ _ := Output.Grows.ordered.refl m.output
  output _ _ h := h

theorem upkeep_fair : Upkeep Kind.Fair fun m m' : Machine σ => m.output.Grows m'.output where
  toHeedless := Machine.heedless_output
  perform {k} hk := by
    cases k with
    | hook act => exact hk.elim
    | builtin p => exact Machine.heedless_output.run p
    | native arity f =>
      refine Machine.keeps_callNative Machine.heedless_output.partWise.toShallow (fun m args => ?_) arity
      rw [Machine.stateAfter_onSurface]
      exact hk args m.memory ⟨m.host, m.output⟩
    | compiled entry => exact Machine.heedless_output.call entry
    | constant v => exact Machine.heedless_output.partWise.closed.push v
  compiled _ := trivial
  constant _ := trivial

namespace Engine

theorem upholds_request {r : Request σ} (hr : r.Fair) :
    Keeps (Upholds Kind.Fair fun m m' => m.output.Grows m'.output) r.act := by
  cases r with
  | register name arity f => exact upholds_register upkeep_fair name hr
  | interpret fuel label text => exact upholds_interpret upkeep_fair fuel label text
  | call fuel a => exact upholds_callAddress upkeep_fair fuel a

theorem upholds_after (s : Engine σ) {rs : List (Request σ)} (hrs : ∀ r ∈ rs, r.Fair) :
    Upholds Kind.Fair (fun m m' => m.output.Grows m'.output) s (s.after rs) := by
  have ho := (upholds_allows (upkeep_fair (σ := σ))).toOrdered
  induction rs generalizing s with
  | nil => exact ho.refl s
  | cons r rs ih =>
    obtain ⟨hr, hrs⟩ := List.forall_mem_cons.mp hrs
    exact ho.trans (upholds_request hr s) (ih _ hrs)

/-- After every call of every session the engine is in order. No call moves the free end back
    or touches an entry that was there, and where a text or a run failed the stacks are empty. The
    output is no longer than it may be as long as the natives are fair; another native could put any
    output in its place. -/
theorem session_orderly (limits : Limits) (host : σ) (full : Bool) (rs : List (Request σ)) (r : Request σ) :
    let s := (new limits host (if full then Primitive.words else [])).after rs
    let s' := stateAfter r.act s
    s'.Orderly limits ∧ s.machine.memory.here ≤ s'.machine.memory.here ∧ s.dict.Extends s'.dict ∧
      (r.runs = true → ∀ e t, r.act s = .error e t → t.machine.data.depth = 0 ∧ t.machine.ret.depth = 0) ∧
      ((∀ q ∈ rs ++ [r], q.Fair) → s'.machine.output.text.utf8ByteSize ≤ limits.outputBytes) := by
  intro s s'
  obtain ⟨hs, hip⟩ := after_evolves (new_stable_words limits host full) rfl rs
  obtain ⟨⟨he, hi⟩, hfail⟩ := request_evolves hs hip r
  refine ⟨he.stable.orderly hi, he.here_le, he.dict, hfail, fun hfair => ?_⟩
  have hwords : (new limits host (if full then Primitive.words else [])).dict.All Kind.Fair :=
    Dictionary.All.initial (fun _ => trivial) _
  obtain ⟨-, hgrows⟩ := upholds_after _ hfair hwords
  rw [after_append] at hgrows
  have hinside := hgrows.inside (Nat.zero_le _)
  rw [hgrows.capacity] at hinside
  exact hinside

/-- The second greeting finds no room, so the text fails and the number it pushed is gone. -/
def greetTwice : Request Unit := .interpret 10 "t" "1 . greet 2 greet"

theorem session_orderly_greeting :
    let limits : Limits := { outputBytes := 8 }
    let s := (new limits () Primitive.words).after [.register "greet" 0 (.writing "hello")]
    let s' := stateAfter greetTwice.act s
    s'.Orderly limits ∧ s'.printed = "1 hello" ∧ s'.machine.output.text.utf8ByteSize ≤ 8 ∧
      succeeds greetTwice.act s = false ∧ s'.machine.data.depth = 0 := by
  intro limits s s'
  obtain ⟨horderly, -, -, -, houtput⟩ :=
    session_orderly limits () true [.register "greet" 0 (.writing "hello")] greetTwice
  have hrun : s'.printed = "1 hello" ∧ succeeds greetTwice.act s = false ∧
      s'.machine.data.depth = 0 := by decide +kernel
  refine ⟨horderly, hrun.1, houtput fun q hq => ?_, hrun.2⟩
  rcases List.mem_cons.mp hq with rfl | hq
  · exact Native.fair_writing "hello"
  · rw [List.mem_singleton.mp hq]
    trivial

/-- A native that puts a larger output in place of the engine's is not fair, and the bound is lost. -/
example :
    let s := (new { outputBytes := 4 } () Primitive.words).after
      [.register "enlarge" 0 fun _ _ surface => .ok none { surface with output := .empty 100 },
        .interpret 10 "t" "enlarge 1000000 ."]
    s.machine.output.text.utf8ByteSize = 8 := by
  decide +kernel

end Engine

end Handheld
