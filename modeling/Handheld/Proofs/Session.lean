/-
  Handheld.Proofs.Session — what holds of an engine between one call and the next.

  A host registers words, has texts interpreted and calls addresses, in any order; each may
  fail. Whatever code runs, also bytes that nobody compiled, moves each part of the machine
  only as its own operations do (`Works`). A text is a row of phrases that act at once and of
  definitions, and a definition is all or nothing, so the engine is whole after each of them
  (`Stable`), and after a fault once it has recovered.
-/

import Handheld.Proofs.Definition
import Handheld.Proofs.Stepping

namespace Handheld

variable {σ α : Type}

/-! ## Machines at work -/

namespace Kind

/-- A word of the engine, a native of the host, or one that a text defines: all but those by which
    the host acts on the machine itself. -/
def IsPublic : Kind σ → Prop
  | .hook _ => False
  | .builtin _ | .native _ _ | .compiled _ | .constant _ => True

end Kind

/-- Every word is of a kind with the property. -/
def Dictionary.All (P : Kind σ → Prop) (d : Dictionary σ) : Prop := ∀ xt e, d.get? xt = some e → P e.kind

namespace Machine

/-- What any run leaves of a machine, but for the output, which a native may put in any state. -/
structure Works (m m' : Machine σ) : Prop where
  data : m.data.Moves m'.data
  ret : m.ret.Moves m'.ret
  memory : m.memory.Spares 0 m'.memory

/-- What it leaves when it was no run of compiled code. -/
structure Rests (m m' : Machine σ) : Prop extends Works m m' where
  ip : m'.ip = m.ip

theorem Works.refl (m : Machine σ) : m.Works m :=
  ⟨Stack.Moves.ordered.refl _, Stack.Moves.ordered.refl _, (Memory.Spares.ordered 0).refl _⟩

theorem Works.trans {a b c : Machine σ} (h : a.Works b) (g : b.Works c) : a.Works c :=
  ⟨Stack.Moves.ordered.trans h.data g.data, Stack.Moves.ordered.trans h.ret g.ret,
    (Memory.Spares.ordered 0).trans h.memory g.memory⟩

theorem Works.ofData (m : Machine σ) {s : Stack} (h : m.data.Moves s) : m.Works { m with data := s } :=
  { Works.refl m with data := h }

theorem Works.ofReturn (m : Machine σ) {s : Stack} (h : m.ret.Moves s) : m.Works { m with ret := s } :=
  { Works.refl m with ret := h }

theorem Works.ofMemory (m : Machine σ) {s : Memory} (h : m.memory.Spares 0 s) :
    m.Works { m with memory := s } :=
  { Works.refl m with memory := h }

theorem Works.ofSurface (m : Machine σ) (surface : Surface σ) :
    m.Works { m with host := surface.host, output := surface.output } :=
  { Works.refl m with }

theorem works_partWise : PartWise (Works (σ := σ)) where
  refl := .refl
  trans := .trans
  data m _ := .ofData m
  memory m _ h := .ofMemory m (h.spares 0)
  output m o _ := .ofSurface m ⟨m.host, o⟩

theorem rests_partWise : PartWise (Rests (σ := σ)) where
  refl m := ⟨.refl m, rfl⟩
  trans h g := ⟨h.toWorks.trans g.toWorks, g.ip.trans h.ip⟩
  data m _ h := ⟨.ofData m h, rfl⟩
  memory m _ h := ⟨.ofMemory m (h.spares 0), rfl⟩
  output m o _ := ⟨.ofSurface m ⟨m.host, o⟩, rfl⟩

/-- A store moves nothing that runs keep. -/
theorem Works.ofStore (m : Machine σ) {s : Memory} {a len : Nat} (h : Memory.Stores a len m.memory s) :
    m.Works { m with memory := s } :=
  .ofMemory m (h.spares (Nat.zero_le a))

end Machine

open Machine in
theorem Kind.works_perform {k : Kind σ} (hk : k.IsPublic) : Keeps Works k.perform := by
  have hp := works_partWise (σ := σ)
  cases k with
  | hook act => exact hk.elim
  | builtin p =>
    exact hp.closed.run p
      (fun _ => steering_keeps hp.toOrdered (fun m _ => .ofReturn m) fun m _ => { Works.refl m with })
      (fun _ => returning_keeps fun m _ => .ofReturn m)
      (fun _ => storing_keeps hp.toOrdered fun m _ _ _ => .ofStore m)
  | native arity f =>
    refine keeps_callNative hp.toShallow (fun m args => ?_) arity
    rw [stateAfter_onSurface]
    exact .ofSurface m _
  | compiled entry =>
    exact keeps_call hp.toOrdered (fun m _ => .ofReturn m) (fun m _ _ => { Works.refl m with }) entry
  | constant v => exact hp.closed.push v

open Machine in
theorem Kind.rests_perform {k : Kind σ} (hk : k.IsPublic) (ho : k.isOrdinary = true) :
    Keeps Rests k.perform := by
  have hp := rests_partWise (σ := σ)
  cases k with
  | hook act => exact hk.elim
  | compiled entry => cases ho
  | builtin p =>
    have hc : p.isControl = false := by simpa [isOrdinary] using ho
    exact hp.closed.run p (fun h => by rw [hc] at h; cases h)
        (fun _ => returning_keeps fun m _ h => ⟨.ofReturn m h, rfl⟩)
      (fun _ => storing_keeps hp.toOrdered fun m _ _ _ h => ⟨.ofStore m h, rfl⟩)
  | native arity f =>
    refine keeps_callNative hp.toShallow (fun m args => ?_) arity
    rw [stateAfter_onSurface]
    exact ⟨.ofSurface m _, rfl⟩
  | constant v => exact hp.closed.push v

namespace Dictionary

open Machine

variable {d : Dictionary σ} (hd : d.All Kind.IsPublic)

include hd

theorem works_perform (xt : Nat) : Keeps Works (d.perform xt) := by
  unfold perform
  split
  · next e he => exact e.kind.works_perform (hd xt e he)
  · exact .throw works_partWise.toOrdered _

theorem works_step : Keeps Works d.step := by
  have ho := works_partWise (σ := σ) |>.toOrdered
  refine .bind ho (.get ho) fun m => ?_
  split
  · exact .pure ho ()
  · refine .bind ho (works_partWise.closed.fetchCell _) fun v => .bind ho ?_ fun _ => ?_
    · exact .modify fun m => { Works.refl m with }
    · exact .bind ho (keeps_count ho v _) fun xt => works_perform hd xt

theorem works_runFor (n : Nat) : Keeps Works (d.runFor n) := by
  have ho := works_partWise (σ := σ) |>.toOrdered
  induction n with
  | zero => exact .pure ho ()
  | succ n ih =>
    refine .bind ho (.get ho) fun m => ?_
    split
    · exact .bind ho (works_step hd) fun _ => ih
    · exact .pure ho ()

end Dictionary

/-! ## Whole engines -/

/-- What a visible entry may be, in a memory with that free end. -/
def Kind.Sound (here : Nat) : Kind σ → Prop
  | .builtin p => p.isControl = false
  | .hook _ => False
  | .compiled entry => 4 ∣ entry ∧ entry + 4 ≤ here
  | .native _ _ | .constant _ => True

theorem Kind.Sound.mono {here here' : Nat} {k : Kind σ} (h : k.Sound here) (hle : here ≤ here') :
    k.Sound here' := by
  cases k with
  | compiled entry => exact ⟨h.1, Nat.le_trans h.2 hle⟩
  | builtin | hook | native | constant => exact h

theorem Kind.Sound.isPublic {here : Nat} {k : Kind σ} (h : k.Sound here) : k.IsPublic := by
  cases k with
  | hook => exact h.elim
  | builtin | native | compiled | constant => trivial

/-- The first entries are the compiler's instructions, hidden; the others are visible. -/
structure Dictionary.Sound (here : Nat) (d : Dictionary σ) : Prop where
  size : Primitive.runtime.length ≤ d.size
  runtime : d.Rooted
  others : ∀ xt e, Primitive.runtime.length ≤ xt → d.get? xt = some e → e.hidden = false ∧ e.kind.Sound here

/-- Every entry keeps its place, name, kind and visibility. -/
def Dictionary.Extends (d d' : Dictionary σ) : Prop :=
  d.size ≤ d'.size ∧ ∀ xt < d.size, d'.get? xt = d.get? xt

namespace Dictionary

section

variable {P : Kind σ → Prop} {d : Dictionary σ}

theorem All.push (hd : d.All P) (name : String) {kind : Kind σ} (hk : P kind) :
    (d.push name kind).2.All P := by
  intro xt e he
  rw [get?_push] at he
  split at he
  · cases he; exact hk
  · exact hd xt e he

theorem All.pushHidden (hd : d.All P) (name : String) {kind : Kind σ} (hk : P kind) :
    (d.pushHidden name kind).2.All P := by
  intro xt e he
  rw [get?_pushHidden] at he
  split at he
  · cases he; exact hk
  · exact hd xt e he

/-- The words an engine starts with are all instructions. -/
theorem All.initial (hp : ∀ p, P (.builtin p)) (words : List (String × Primitive)) :
    (initial words).All P := by
  have hpush {ws : List (String × Primitive)} {d : Dictionary σ} (hd : d.All P) :
      (ws.foldl (fun d w => (d.push w.1 (.builtin w.2)).2) d).All P := by
    induction ws generalizing d with
    | nil => exact hd
    | cons w ws ih => exact ih (hd.push w.1 (hp w.2))
  refine hpush (d := Dictionary.initial []) fun xt e he => ?_
  have hsize : xt < Primitive.runtime.length := (Array.getElem?_eq_some_iff.mp he).1
  rw [get?_initial_nil hsize] at he
  cases he
  exact hp _

theorem All.reveal (hd : d.All P) (xt : Nat) : (d.reveal xt).All P := by
  intro i e he
  rw [get?_reveal] at he
  split at he
  · obtain ⟨e', he', rfl⟩ := Option.map_eq_some_iff.mp he
    exact hd i e' he'
  · exact hd i e he

theorem All.truncate (hd : d.All P) (n : Nat) : (d.truncate n).All P := by
  intro xt e he
  rw [get?_truncate] at he
  split at he
  · exact hd xt e he
  · cases he

end

theorem Extends.refl (d : Dictionary σ) : d.Extends d := ⟨Nat.le_refl _, fun _ _ => rfl⟩

theorem Extends.trans {a b c : Dictionary σ} (h : a.Extends b) (g : b.Extends c) : a.Extends c :=
  ⟨Nat.le_trans h.1 g.1, fun xt hx => (g.2 xt (Nat.lt_of_lt_of_le hx h.1)).trans (h.2 xt hx)⟩

theorem extends_push (d : Dictionary σ) (name : String) (kind : Kind σ) : d.Extends (d.push name kind).2 :=
  ⟨by rw [size_push]; omega, fun xt hx => by rw [get?_push, if_neg (by omega)]⟩

theorem extends_pushHidden (d : Dictionary σ) (name : String) (kind : Kind σ) :
    d.Extends (d.pushHidden name kind).2 :=
  ⟨by rw [size_pushHidden]; omega, fun xt hx => by rw [get?_pushHidden, if_neg (by omega)]⟩

theorem Extends.get? {d d' : Dictionary σ} (h : d.Extends d') {xt : Nat} {e : Entry σ}
    (he : d.get? xt = some e) : d'.get? xt = some e := by
  obtain ⟨hx, -⟩ := Array.getElem?_eq_some_iff.mp he
  exact (h.2 xt hx).trans he

theorem Rooted.extends {d d' : Dictionary σ} (hd : d.Rooted) (h : d.Extends d') : d'.Rooted := by
  intro xt hx
  rw [get?_initial_nil hx]
  exact h.get? ((hd xt hx).trans (get?_initial_nil hx))

theorem Sound.mono {here here' : Nat} {d : Dictionary σ} (h : d.Sound here) (hle : here ≤ here') :
    d.Sound here' :=
  { h with others := fun xt e hx he => ⟨(h.others xt e hx he).1, (h.others xt e hx he).2.mono hle⟩ }

theorem Sound.push {here : Nat} {d : Dictionary σ} (h : d.Sound here) (name : String) {kind : Kind σ}
    (hk : kind.Sound here) : (d.push name kind).2.Sound here where
  size := by rw [size_push]; exact Nat.le_succ_of_le h.size
  runtime xt hx := by
    have := h.size
    rw [get?_push, if_neg (by omega)]
    exact h.runtime xt hx
  others xt e hx he := by
    rw [get?_push] at he
    split at he
    · cases he; exact ⟨rfl, hk⟩
    · exact h.others xt e hx he

theorem findBelow_eq_some {d : Dictionary σ} {name : Name} {n xt : Nat} (h : d.findBelow name n = some xt) :
    ∃ e, d.get? xt = some e ∧ e.hidden = false ∧ e.name.text = name.text := by
  induction n with
  | zero => cases h
  | succ n ih =>
    rw [findBelow] at h
    split at h
    · next e he =>
      split at h
      · next hc =>
        cases h
        obtain ⟨hv, hn⟩ := Bool.and_eq_true_iff.mp hc
        exact ⟨e, he, by simpa using hv, (Name.beq_iff _ _).mp hn⟩
      · exact ih h
    · exact ih h

/-- The entry a name stands for is there and visible. -/
theorem find?_visible {d : Dictionary σ} {word : String} {xt : Nat} (h : d.find? word = some xt) :
    ∃ e, d.get? xt = some e ∧ e.hidden = false := by
  obtain ⟨e, he, hv, -⟩ := findBelow_eq_some h
  exact ⟨e, he, hv⟩

theorem Sound.isPublic {here : Nat} {d : Dictionary σ} (h : d.Sound here) : d.All Kind.IsPublic := by
  intro xt e he
  rcases Nat.lt_or_ge xt Primitive.runtime.length with hx | hx
  · rw [h.runtime xt hx, get?_initial_nil hx] at he
    cases he
    trivial
  · exact (h.others xt e hx he).2.isPublic

theorem Sound.hidden_iff {here : Nat} {d : Dictionary σ} (h : d.Sound here) {xt : Nat} {e : Entry σ}
    (he : d.get? xt = some e) : e.hidden = true ↔ xt < Primitive.runtime.length := by
  rcases Nat.lt_or_ge xt Primitive.runtime.length with hx | hx
  · rw [h.runtime xt hx, get?_initial_nil hx] at he
    cases he
    simp [hx]
  · simp [(h.others xt e hx he).1, Nat.not_lt.mpr hx]

theorem sound_initial {words : List (String × Primitive)} (hw : ∀ w ∈ words, w.2.isControl = false)
    (here : Nat) : (initial words : Dictionary σ).Sound here := by
  have hnil : (initial [] : Dictionary σ).Sound here := by
    refine ⟨Nat.le_refl _, fun _ _ => rfl, fun xt e hx he => ?_⟩
    have : (initial [] : Dictionary σ).get? xt = none := Array.getElem?_eq_none hx
    rw [this] at he
    cases he
  have hfold (d : Dictionary σ) (hd : d.Sound here) :
      (words.foldl (fun d (w : String × Primitive) => (d.push w.1 (.builtin w.2)).2) d).Sound here := by
    clear hnil
    induction words generalizing d with
    | nil => exact hd
    | cons w words ih =>
      exact ih (fun v hv => hw v (List.mem_cons_of_mem w hv)) _ (hd.push w.1 (hw w List.mem_cons_self))
  exact hfold _ hnil

end Dictionary

/-! ## Running words -/

namespace Engine

/-- How a run that is not over after the steps it was given ends. -/
def overrun (budget : Option Nat) : Halt :=
  match budget with
  | some limit => .fault (.budgetExceeded limit)
  | none => .unfinished

theorem runCode_eq (fuel entry : Nat) (s : Engine σ) :
    runCode fuel entry s =
      match (Machine.start entry >>= fun _ => s.dict.runFor (s.budget.getD fuel)) s.machine with
      | .ok _ m =>
        if m.ip.isSome then .error (overrun s.budget) { s with machine := m }
        else .ok () { s with machine := m }
      | .error f m => .error (.fault f) { s with machine := m } := by
  rw [runCode, bind_of_ok (get_apply s), bind_of_ok (get_apply s), bind_apply, onMachine_eq]
  rcases (Machine.start entry >>= fun _ => s.dict.runFor (s.budget.getD fuel)) s.machine with ⟨_, m⟩ | ⟨f, m⟩
  · dsimp only
    rw [bind_of_ok (get_apply _)]
    cases m.ip with
    | none => rfl
    | some a => cases s.budget <;> rfl
  · rfl

/-- A run that succeeds has ended. -/
theorem runCode_ok {fuel entry : Nat} {s s' : Engine σ} (h : runCode fuel entry s = .ok () s') :
    ∃ m, m.ip = none ∧ s' = { s with machine := m } := by
  rw [runCode_eq] at h
  split at h
  · next m _ =>
    split at h
    · cases h
    · next hip =>
      cases h
      exact ⟨m, Option.not_isSome_iff_eq_none.mp hip, rfl⟩
  · cases h

theorem execute_compiled {fuel xt entry : Nat} {s : Engine σ} {e : Entry σ} (he : s.dict.get? xt = some e)
    (hk : e.kind = .compiled entry) (hip : s.machine.ip = none) :
    execute fuel xt s = runCode fuel entry s := by
  obtain ⟨name, kind, hidden⟩ := e
  cases hk
  rw [execute, bind_of_ok (get_apply s), bind_of_ok (get_apply s), he, hip]

/-- A word acts on the machine, but for compiled code outside of a run. -/
theorem execute_performs {fuel xt : Nat} {s : Engine σ} {e : Entry σ} (he : s.dict.get? xt = some e)
    (hk : s.machine.ip = none → ∀ entry, e.kind ≠ .compiled entry) :
    execute fuel xt s = onMachine e.kind.perform s := by
  have hp : s.dict.perform xt = e.kind.perform := by rw [Dictionary.perform, he]
  obtain ⟨name, kind, hidden⟩ := e
  rw [execute, bind_of_ok (get_apply s), bind_of_ok (get_apply s), he, ← hp]
  cases kind with
  | compiled entry =>
    cases hip : s.machine.ip with
    | none => exact absurd rfl (hk hip entry)
    | some a => rfl
  | builtin | hook | native | constant => rfl

theorem execute_ordinary {fuel xt : Nat} {s : Engine σ} {e : Entry σ} (he : s.dict.get? xt = some e)
    (hk : e.kind.isOrdinary = true) : execute fuel xt s = onMachine e.kind.perform s := by
  refine execute_performs he fun _ entry hcompiled => ?_
  rw [hcompiled] at hk
  cases hk

end Engine

/-! ## From one state to a later one -/

/-- The machine has the sizes it was made with and is within them, the output apart. -/
structure Machine.Within (limits : Limits) (m : Machine σ) : Prop where
  dataCapacity : m.data.capacity = limits.dataCells
  data : m.data.depth ≤ limits.dataCells
  returnCapacity : m.ret.capacity = limits.returnCells
  ret : m.ret.depth ≤ limits.returnCells
  memoryCapacity : m.memory.capacity = min limits.memoryBytes Cell.maxNat
  memory : m.memory.here ≤ m.memory.capacity

theorem Machine.Within.works {limits : Limits} {m m' : Machine σ} (h : m.Within limits)
    (hw : m.Works m') : m'.Within limits where
  dataCapacity := hw.data.capacity.trans h.dataCapacity
  data := by
    rw [← h.dataCapacity, ← hw.data.capacity]; exact hw.data.inside (by rw [h.dataCapacity]; exact h.data)
  returnCapacity := hw.ret.capacity.trans h.returnCapacity
  ret := by
    rw [← h.returnCapacity, ← hw.ret.capacity]; exact hw.ret.inside (by rw [h.returnCapacity]; exact h.ret)
  memoryCapacity := hw.memory.capacity.trans h.memoryCapacity
  memory := hw.memory.inside h.memory

theorem Machine.Within.valid {limits : Limits} {m : Machine σ} (h : m.Within limits) : m.memory.Valid :=
  ⟨h.memory, by rw [h.memoryCapacity]; exact Nat.min_le_right ..⟩

namespace Engine

/-- The engine is whole, but that code may be running. -/
structure Stable (limits : Limits) (s : Engine σ) : Prop where
  mode : s.mode = .run
  machine : s.machine.Within limits
  dict : s.dict.Sound s.machine.memory.here

/-- A later state of the engine. -/
structure Evolves (limits : Limits) (s s' : Engine σ) : Prop where
  stable : s'.Stable limits
  here_le : s.machine.memory.here ≤ s'.machine.memory.here
  dict : s.dict.Extends s'.dict

variable {limits : Limits} {s s₁ s₂ s' : Engine σ}

theorem Evolves.refl (hs : s.Stable limits) : s.Evolves limits s := ⟨hs, Nat.le_refl _, .refl _⟩

theorem Evolves.trans (h : s.Evolves limits s₁) (g : s₁.Evolves limits s₂) : s.Evolves limits s₂ :=
  ⟨g.stable, Nat.le_trans h.here_le g.here_le, h.dict.trans g.dict⟩

theorem Stable.works (hs : s.Stable limits) {m : Machine σ} (hw : s.machine.Works m) :
    s.Evolves limits { s with machine := m } :=
  ⟨⟨hs.mode, hs.machine.works hw, hs.dict.mono hw.memory.here_le⟩, hw.memory.here_le, .refl _⟩

theorem Stable.define (hs : s.Stable limits) (name : String) (kind : Kind σ)
    (hk : kind.Sound s.machine.memory.here) :
    s.Evolves limits { s with dict := (s.dict.push name kind).2 } :=
  ⟨⟨hs.mode, hs.machine, hs.dict.push name hk⟩, Nat.le_refl _, Dictionary.extends_push ..⟩

end Engine

/-! ## Phrases that act at once -/

namespace Engine

theorem Reading.needName {P : ∀ {α : Type}, Session σ α → Prop} (h : Reading P) (t : Token)
    (name : Option String) : P (needName t name : Session σ String) := by
  cases name with
  | none => exact h.fail _ rfl
  | some w => exact h.pure w

/-- A property that the parts of defining words have and that sequencing keeps. -/
structure Defining (P : ∀ {α : Type}, Session σ α → Prop) : Prop extends Reading P where
  pop : P (onMachine Machine.pop)
  constant (name : String) (v : Cell) : P (define name (.constant v))

theorem Defining.interpretDefiner {P : ∀ {α : Type}, Session σ α → Prop} (h : Defining P) (t : Token)
    (name : Option String)
    {d : Definer} (hd : d ≠ .colon) : P (interpretDefiner t name d : Session σ Unit) := by
  have hname := h.needName t name
  cases d with
  | colon => exact absurd rfl hd
  | constant => exact h.bind h.pop fun v => h.bind hname fun w => h.constant w v
  | variable_ =>
    exact h.bind hname fun w => h.bind (h.bumpCell 0) fun a => h.bind (h.cell a) fun v => h.constant w v
  | create => exact h.bind hname fun w => h.bind h.align fun _ => h.bind h.codeEnd fun v => h.constant w v

/-- A property that the parts of interpreting have and that sequencing keeps, where acts on the
    machine bring it along. -/
structure Interpreting (Q : ∀ {α : Type}, Act σ α → Prop) (P : ∀ {α : Type}, Session σ α → Prop) :
    Prop extends Reading P where
  closed : Act.Closed Q
  machine {α : Type} {act : Act σ α} : Q act → P (onMachine act)
  constant (name : String) (v : Cell) : P (define name (.constant v))

namespace Interpreting

variable {Q : ∀ {α : Type}, Act σ α → Prop} {P : ∀ {α : Type}, Session σ α → Prop} (h : Interpreting Q P)

include h

theorem defining : Defining P := { h.toReading with pop := h.machine h.closed.pop, constant := h.constant }

theorem interpretString (u : StringUse) (text : String) : P (interpretString u text : Session σ Unit) := by
  have hc := h.closed
  cases u with
  | print => exact h.machine (hc.write text)
  | push =>
    refine h.bind (h.bumpBytes _) fun a => h.machine ?_
    exact hc.bind (hc.cell a) fun v => hc.bind (hc.push v) fun _ => hc.bind (hc.cell _) fun n => hc.push n

/-- Interpreting any phrase, if running words and beginning definitions have the property too. -/
theorem interpretAny {fuel : Nat} (hexecute : ∀ xt, P (execute fuel xt : Session σ Unit))
    (hopen : ∀ w, P (openDraft w : Session σ Unit)) (p : Phrase) :
    P (interpretPhrase fuel p : Session σ Unit) := by
  cases p with
  | word t =>
    refine h.sense t.text fun r => ?_
    rcases r with _ | ⟨xt⟩ | ⟨v⟩
    · exact ⟨_, h.fail _ rfl, fun s hs => by rw [hs]⟩
    · exact ⟨_, hexecute xt, fun s hs => by rw [hs]⟩
    · exact ⟨_, h.machine (h.closed.push v), fun s hs => by rw [hs]⟩
  | control k t => exact h.fail _ rfl
  | define d t name =>
    by_cases hd : d = .colon
    · subst hd
      exact h.bind (h.needName t name) hopen
    · exact h.defining.interpretDefiner t name hd
  | text u t body =>
    cases body with
    | none => exact h.fail _ rfl
    | some text => exact h.interpretString u text
  | comment closed => exact h.pure ()

end Interpreting

/-- A relation between engines that allows a new constant, and every act on the machine that
    keeps `Q`. -/
structure Allows (R : Engine σ → Engine σ → Prop) (Q : Machine σ → Machine σ → Prop) :
    Prop extends Ordered R where
  parts : Machine.PartWise Q
  machine (s : Engine σ) (m : Machine σ) : Q s.machine m → R s { s with machine := m }
  constant (s : Engine σ) (name : String) (v : Cell) :
      R s { s with dict := (s.dict.push name (.constant v)).2 }

namespace Allows

variable {R : Engine σ → Engine σ → Prop} {Q : Machine σ → Machine σ → Prop} (h : Allows R Q)

include h

theorem onMachine {act : Act σ α} (ha : Keeps Q act) : Keeps R (onMachine act) := by
  intro s
  rw [stateAfter_onMachine]
  exact h.machine s _ (ha s.machine)

theorem onMemory {op : Memory.Op α} (ho : Keeps Memory.Grows op) : Keeps R (onMemory op) :=
  h.onMachine (h.parts.onMemory ho)

theorem interpreting : Interpreting (fun x => Keeps Q x) (fun x => Keeps R x) where
  pure := .pure h.toOrdered
  bind := .bind h.toOrdered
  here hf := .bind h.toOrdered (.get h.toOrdered) fun _ => hf _
  sense := keeps_sense h.toOrdered
  fail _ _ := .throw h.toOrdered _
  cell a := h.onMachine (h.parts.closed.cell a)
  bumpCell v := h.onMemory (Memory.keeps_bumpCell v)
  bumpBytes bytes := h.onMemory (Memory.keeps_bumpBytes bytes)
  align := h.onMemory Memory.keeps_align
  closed := h.parts.closed
  machine := h.onMachine
  constant name v := .modify fun s => h.constant s name v

/-- A phrase that acts at once runs a word, or does what is allowed. -/
theorem interpretPhrase (fuel : Nat) {p : Phrase} (hp : ∀ t name, p ≠ .define .colon t name) (s : Engine σ) :
    (∃ t xt, p = .word t ∧ s.dict.find? t.text = some xt ∧ interpretPhrase fuel p s = execute fuel xt s) ∨
      R s (stateAfter (interpretPhrase fuel p) s) := by
  cases p with
  | word t =>
    unfold stateAfter
    rw [Engine.interpretPhrase, bind_of_ok (get_apply s), Dictionary.sense?]
    cases hf : s.dict.find? t.text with
    | some xt => exact .inl ⟨t, xt, rfl, hf, rfl⟩
    | none =>
      cases numeral? t.text with
      | some v => exact .inr (h.onMachine (h.parts.closed.push v) s)
      | none => exact .inr (h.refl s)
  | control k t => exact .inr (h.refl s)
  | define d t name =>
    have hd : d ≠ .colon := by
      rintro rfl
      exact hp t name rfl
    exact .inr (h.interpreting.defining.interpretDefiner t name hd s)
  | text u t body =>
    cases body with
    | none => exact .inr (h.refl s)
    | some text => exact .inr (h.interpreting.interpretString u text s)
  | comment closed => exact .inr (h.refl s)

end Allows

variable {limits : Limits} {s s₁ s₂ s' : Engine σ}

/-- Where nothing runs the engine evolves, and nothing runs after it. -/
def Rests (limits : Limits) (s s' : Engine σ) : Prop :=
  s.Stable limits → s.Evolves limits s' ∧ s'.machine.ip = s.machine.ip

theorem rests_allows (limits : Limits) : Allows (Rests (σ := σ) limits) Machine.Rests where
  refl _ hs := ⟨.refl hs, rfl⟩
  trans h g hs :=
    have h₁ := h hs
    have h₂ := g h₁.1.stable
    ⟨h₁.1.trans h₂.1, h₂.2.trans h₁.2⟩
  parts := Machine.rests_partWise
  machine _ _ h hs := ⟨hs.works h.toWorks, h.ip⟩
  constant _ name v hs := ⟨hs.define name (.constant v) trivial, rfl⟩

/-- A run of code leaves the engine whole, and when it ends nothing is running. -/
theorem runCode_evolves (hs : s.Stable limits) (fuel entry : Nat) :
    s.Evolves limits (stateAfter (runCode fuel entry) s) ∧
      ∀ s', runCode fuel entry s = .ok () s' → s'.machine.ip = none := by
  have hw : Keeps Machine.Works (Machine.start entry >>= fun _ => s.dict.runFor (s.budget.getD fuel)) :=
    .bind Machine.works_partWise.toOrdered (.modify fun m => { Machine.Works.refl m with }) fun _ =>
      Dictionary.works_runFor hs.dict.isPublic _
  have hrun := hw s.machine
  unfold stateAfter at hrun ⊢
  rw [runCode_eq]
  rcases h : (Machine.start entry >>= fun _ => s.dict.runFor (s.budget.getD fuel)) s.machine
      with ⟨_, m⟩ | ⟨f, m⟩
  · rw [h] at hrun
    cases hip : m.ip with
    | none =>
      simp only [hip, Option.isSome_none, Bool.false_eq_true, if_false]
      exact ⟨hs.works hrun, fun s' h => by cases h; exact hip⟩
    | some a =>
      simp only [hip, Option.isSome_some, if_true]
      exact ⟨hs.works hrun, fun s' h => by cases h⟩
  · rw [h] at hrun
    exact ⟨hs.works hrun, fun s' h => by cases h⟩

/-- A visible word is compiled code or acts on its own. -/
theorem Stable.ordinary (hs : s.Stable limits) {xt : Nat} {e : Entry σ} (he : s.dict.get? xt = some e)
    (hv : e.hidden = false) : (∃ entry, e.kind = .compiled entry) ∨ e.kind.isOrdinary = true := by
  have hx : Primitive.runtime.length ≤ xt := by
    refine Nat.not_lt.mp fun hlt => ?_
    rw [(hs.dict.hidden_iff he).mpr hlt] at hv
    cases hv
  have hk := (hs.dict.others xt e hx he).2
  cases hkind : e.kind with
  | compiled entry => exact .inl ⟨entry, rfl⟩
  | hook act => rw [hkind] at hk; exact hk.elim
  | builtin p =>
    rw [hkind] at hk
    have hc : p.isControl = false := hk
    exact .inr (by rw [Kind.isOrdinary, hc]; rfl)
  | native arity f => exact .inr rfl
  | constant v => exact .inr rfl

theorem execute_evolves (hs : s.Stable limits) (hip : s.machine.ip = none) {fuel xt : Nat} {e : Entry σ}
    (he : s.dict.get? xt = some e) (hv : e.hidden = false) :
    s.Evolves limits (stateAfter (execute fuel xt) s) ∧ ∀ s',
    execute fuel xt s = .ok () s' → s'.machine.ip = none := by
  rcases hs.ordinary he hv with ⟨entry, hk⟩ | ho
  · unfold stateAfter
    rw [execute_compiled he hk hip]
    exact runCode_evolves hs fuel entry
  · have hrests := (rests_allows limits).onMachine (Kind.rests_perform (hs.dict.isPublic xt e he) ho) s hs
    unfold stateAfter at hrests ⊢
    rw [execute_ordinary he ho]
    exact ⟨hrests.1, fun s' h => by rw [h, hip] at hrests; exact hrests.2⟩

/-- A phrase that acts at once leaves the engine whole. -/
theorem interpretPhrase_evolves (hs : s.Stable limits) (hip : s.machine.ip = none) (fuel : Nat) {p : Phrase}
    (hp : ∀ t name, p ≠ .define .colon t name) :
    s.Evolves limits (stateAfter (interpretPhrase fuel p) s) ∧
      ∀ s', interpretPhrase fuel p s = .ok () s' → s'.machine.ip = none := by
  rcases (rests_allows limits).interpretPhrase fuel hp s with ⟨t, xt, rfl, hf, hrun⟩ | hrests
  · obtain ⟨e, he, hv⟩ := Dictionary.find?_visible hf
    unfold stateAfter
    rw [hrun]
    exact execute_evolves hs hip he hv
  · obtain ⟨he, hi⟩ := hrests hs
    refine ⟨he, fun s' h => ?_⟩
    rwa [stateAfter_ok h, hip] at hi

/-- A completed definition leaves the engine whole. -/
theorem Defined.extends {w : String} {b : Body} (hd : s.Defined w b s') : s.dict.Extends s'.dict := by
  rw [hd.dict]
  exact s.dict.extends_push w _

theorem Defined.evolves {w : String} {b : Body} (hd : s.Defined w b s') (hs : s.Stable limits) :
    s.Evolves limits s' := by
  have hw := hs.works (.ofMemory s.machine (hd.memory.spares 0))
  have hsize : s.entry + 4 ≤ s'.machine.memory.here := by
    rw [hd.laid.here, List.length_append, Instr.length_bytes, Instr.size_plain]
    omega
  have hdef := hw.stable.define w (.compiled s.entry) ⟨Memory.dvd_aligned _, hsize⟩
  rw [hd.engine]
  exact hw.trans hdef

theorem Intact.evolves (hi : s.Intact s') (hs : s.Stable limits) : s.Evolves limits s' := by
  have hm : s.machine.memory.Spares 0 s'.machine.memory :=
    ⟨hi.capacity, Nat.le_of_eq hi.here.symm,
     fun h => by rw [hi.here, hi.capacity]; exact h, fun _ hb => by cases hb⟩
  rw [hi.engine]
  exact hs.works (.ofMemory s.machine hm)

/-- A text leaves the engine whole, also where it fails, once the definition it was in is gone. -/
theorem reading_evolves (hs : s.Stable limits) (hip : s.machine.ip = none) (fuel : Nat) (ps : List Phrase) :
    match (feedAll fuel ps >>= fun _ => finish) s with
    | .ok _ s' => s.Evolves limits s' ∧ s'.machine.ip = none
    | .error _ s' => s.Evolves limits s'.discardDraft := by
  refine reading_induction (P := fun _ s' => s.Evolves limits s' ∧
      s'.machine.ip = none) (Q := fun s' => s.Evolves limits s')
    ?_ ?_ ?_ ?_ ?_ ps ⟨.refl hs, hip⟩
  · exact fun h => ⟨h.1.stable.mode, h.1.stable.machine.valid⟩
  · intro p ps s₁ s₂ h hp hrun
    obtain ⟨he, hi⟩ := interpretPhrase_evolves h.1.stable h.2 fuel hp
    rw [stateAfter_ok hrun] at he
    exact ⟨h.1.trans he, hi s₂ hrun⟩
  · intro p ps s₁ e s₂ h hp hrun
    obtain ⟨he, -⟩ := interpretPhrase_evolves h.1.stable h.2 fuel hp
    rw [stateAfter_error hrun] at he
    rw [discardDraft_of_run he.stable.mode]
    exact h.1.trans he
  · exact fun h hi => h.1.trans (hi.evolves h.1.stable)
  · intro t w qs u rest b s₁ s₂ h _ _ hd
    refine ⟨h.1.trans (hd.evolves h.1.stable), ?_⟩
    rw [hd.engine]
    exact h.2

theorem reading_ok_evolves (hs : s.Stable limits) (hip : s.machine.ip = none) {fuel : Nat} {ps : List Phrase}
    (h : (feedAll fuel ps >>= fun _ => finish) s = .ok () s') :
    s.Evolves limits s' ∧ s'.machine.ip = none := by
  have hread := reading_evolves hs hip fuel ps
  rw [h] at hread
  exact hread

/-- After a fault and what was to be taken back, the engine is whole and its stacks are empty. -/
theorem recover_evolves (h : s.Evolves limits s'.discardDraft) :
    s.Evolves limits s'.recover ∧ s'.recover.machine.ip = none ∧
      s'.recover.machine.data.depth = 0 ∧ s'.recover.machine.ret.depth = 0 := by
  have hw : s'.discardDraft.machine.Works s'.discardDraft.machine.reset :=
    { Machine.Works.refl s'.discardDraft.machine with
      data := ⟨rfl, rfl, fun _ => Nat.zero_le _⟩
      ret := ⟨rfl, rfl, fun _ => Nat.zero_le _⟩ }
  exact ⟨h.trans (h.stable.works hw), rfl, rfl, rfl⟩

theorem recovering_eq (act : Session σ α) (s : Engine σ) :
    recovering act s = match act s with
      | .ok a s => .ok a s
      | .error e s => .error e s.recover := rfl

theorem recovering_evolves {act : Session σ Unit}
    (hok : ∀ s', act s = .ok () s' → s.Evolves limits s' ∧ s'.machine.ip = none)
    (herror : ∀ e s', act s = .error e s' → s.Evolves limits s'.discardDraft) :
    (s.Evolves limits (stateAfter (recovering act) s) ∧ (stateAfter (recovering act) s).machine.ip = none) ∧
      ∀ e s', recovering act s = .error e s' → s'.machine.data.depth = 0 ∧ s'.machine.ret.depth = 0 := by
  unfold stateAfter
  rw [recovering_eq]
  cases h : act s with
  | ok a s' => exact ⟨hok s' h, fun e s'' h => by cases h⟩
  | error e s' =>
    obtain ⟨he, hip, hd, hr⟩ := recover_evolves (herror e s' h)
    exact ⟨⟨he, hip⟩, fun e s'' h => by cases h; exact ⟨hd, hr⟩⟩

end Engine

/-! ## Calls from the host -/

/-- What a host may ask of an engine. -/
inductive Request (σ : Type) where
  | register (name : String) (arity : Nat) (f : Native σ)
  | interpret (fuel : Nat) (label text : String)
  | call (fuel addr : Nat)

def Request.act : Request σ → Session σ Unit
  | .register name arity f => Engine.register name (.native arity f)
  | .interpret fuel label text => Engine.interpret fuel label text
  | .call fuel addr => Engine.callAddress fuel addr

/-- Whether the request runs the program's code, which a fault can break off. -/
def Request.runs : Request σ → Bool
  | .register _ _ _ => false
  | .interpret _ _ _ | .call _ _ => true

namespace Engine

/-- The engine after some requests, each granted or failed. -/
def after (s : Engine σ) (requests : List (Request σ)) : Engine σ :=
  requests.foldl (fun s r => stateAfter r.act s) s

theorem after_append (s : Engine σ) (rs rs' : List (Request σ)) :
    s.after (rs ++ rs') = (s.after rs).after rs' := List.foldl_append

variable {limits : Limits} {s : Engine σ}

theorem request_evolves (hs : s.Stable limits) (hip : s.machine.ip = none) (r : Request σ) :
    (s.Evolves limits (stateAfter r.act s) ∧ (stateAfter r.act s).machine.ip = none) ∧
      (r.runs = true → ∀ e s', r.act s = .error e s' → s'.machine.data.depth = 0 ∧
        s'.machine.ret.depth = 0) := by
  cases r with
  | register name arity f =>
    refine ⟨?_, fun h => by cases h⟩
    show s.Evolves limits (stateAfter (register name (.native arity f)) s) ∧
      (stateAfter (register name (.native arity f)) s).machine.ip = none
    unfold register
    split
    · exact ⟨hs.define name (.native arity f) trivial, hip⟩
    · exact ⟨.refl hs, hip⟩
  | interpret fuel label text =>
    have hread := reading_evolves hs hip fuel (Source.ofText label text).phrases
    refine (recovering_evolves (fun s' h => ?_) fun e s' h => ?_).imp_right fun h _ => h
    · rw [h] at hread; exact hread
    · rw [h] at hread; exact hread
  | call fuel addr =>
    obtain ⟨he, hi⟩ := runCode_evolves hs fuel addr
    refine (recovering_evolves (fun s' h => ?_) fun e s' h => ?_).imp_right fun h _ => h
    · rw [stateAfter_ok h] at he
      exact ⟨he, hi s' h⟩
    · rw [stateAfter_error h] at he
      rw [discardDraft_of_run he.stable.mode]
      exact he

theorem evolves_after (hs : s.Stable limits) (hip : s.machine.ip = none) (rs : List (Request σ)) :
    s.Evolves limits (s.after rs) ∧ (s.after rs).machine.ip = none := by
  induction rs generalizing s with
  | nil => exact ⟨.refl hs, hip⟩
  | cons r rs ih =>
    obtain ⟨⟨he, hi⟩, -⟩ := request_evolves hs hip r
    exact (ih he.stable hi).imp_left he.trans

theorem after_evolves (hs : s.Stable limits) (hip : s.machine.ip = none) (rs : List (Request σ)) :
    (s.after rs).Stable limits ∧ (s.after rs).machine.ip = none :=
  (evolves_after hs hip rs).imp_left Evolves.stable

/-! ## From the beginning -/

theorem new_stable (limits : Limits) (host : σ) {words : List (String × Primitive)}
    (hw : ∀ w ∈ words, w.2.isControl = false) : (new limits host words).Stable limits where
  mode := rfl
  machine :=
    { dataCapacity := rfl
      data := Nat.zero_le _
      returnCapacity := rfl
      ret := Nat.zero_le _
      memoryCapacity := rfl
      memory := Nat.zero_le _ }
  dict := Dictionary.sound_initial hw 0

/-- What a host can rely on between two calls, whatever its natives do. -/
structure Orderly (limits : Limits) (s : Engine σ) : Prop where
  mode : s.mode = .run
  ip : s.machine.ip = none
  data : s.machine.data.depth ≤ limits.dataCells
  ret : s.machine.ret.depth ≤ limits.returnCells
  here : s.machine.memory.here ≤ s.machine.memory.capacity
  capacity : s.machine.memory.capacity ≤ Cell.maxNat
  runtime : ∀ xt < Primitive.runtime.length, s.dict.get? xt = (Dictionary.initial [] : Dictionary σ).get? xt
  hidden : ∀ xt e, s.dict.get? xt = some e → (e.hidden = true ↔ xt < Primitive.runtime.length)
  compiled : ∀ xt e entry, s.dict.get? xt = some e → e.kind = .compiled entry →
    4 ∣ entry ∧ entry + 4 ≤ s.machine.memory.here

theorem Stable.orderly (hs : s.Stable limits) (hip : s.machine.ip = none) : s.Orderly limits where
  mode := hs.mode
  ip := hip
  data := hs.machine.data
  ret := hs.machine.ret
  here := hs.machine.memory
  capacity := hs.machine.valid.capacity_le
  runtime := hs.dict.runtime
  hidden _ _ he := hs.dict.hidden_iff he
  compiled xt e entry he hk := by
    rcases Nat.lt_or_ge xt Primitive.runtime.length with hx | hx
    · rw [hs.dict.runtime xt hx, Dictionary.get?_initial_nil hx] at he
      cases he
      cases hk
    · have hsound := (hs.dict.others xt e hx he).2
      rw [hk] at hsound
      exact hsound

theorem Stable.orderly_interpret (hs : s.Stable limits) (hip : s.machine.ip = none) (fuel : Nat)
    (label text : String) : (stateAfter (interpret fuel label text) s).Orderly limits := by
  obtain ⟨⟨he, hip'⟩, -⟩ := request_evolves hs hip (.interpret fuel label text)
  exact he.stable.orderly hip'

theorem new_stable_words (limits : Limits) (host : σ) (full : Bool) :
    (new limits host (if full then Primitive.words else [])).Stable limits := by
  refine new_stable limits host fun w hw => ?_
  cases full with
  | false => cases hw
  | true => exact Primitive.isControl_of_mem_words hw

end Engine

end Handheld
