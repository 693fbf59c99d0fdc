/-
  Handheld.Proofs.Definition — a definition is all or nothing.

  While a definition is compiled, nothing outside of it is touched: every emission is at the
  free end, and every branch that is patched lies in its own code (`Confined`). So taking it
  back after a fault, wherever that struck, gives the engine from before it began
  (`Underway.discard`). A definition that is completed has added one entry and its code
  (`Defined`), and nothing else.
-/

import Handheld.Engine.Interpretation
import Handheld.Proofs.Emission

namespace Handheld

variable {σ α : Type}

/-! ## The dictionary around a definition -/

namespace Dictionary

theorem findBelow_congr {d d' : Dictionary σ} (name : Name) (n : Nat) (h : ∀ xt < n, d'.get? xt = d.get? xt) :
    d'.findBelow name n = d.findBelow name n := by
  induction n with
  | zero => rfl
  | succ n ih =>
    have hn : d'.entries[n]? = d.entries[n]? := h n (Nat.lt_succ_self n)
    rw [findBelow, findBelow, hn, ih fun xt hx => h xt (Nat.lt_succ_of_lt hx)]

/-- A hidden entry leaves every name with what it meant. -/
theorem find?_pushHidden (d : Dictionary σ) (name : String) (kind : Kind σ) (word : String) :
    (d.pushHidden name kind).2.find? word = d.find? word := by
  have hlast : (d.pushHidden name kind).2.entries[d.size]? = some ⟨.ofString name, kind, true⟩ := by
    have := d.get?_pushHidden name kind d.size
    rwa [if_pos rfl] at this
  have hbelow : ∀ xt < d.size, (d.pushHidden name kind).2.get? xt = d.get? xt := fun xt hx => by
    rw [get?_pushHidden, if_neg (by omega)]
  rw [find?, find?, size_pushHidden, findBelow, hlast]
  simp only [Bool.not_true, Bool.false_and, Bool.false_eq_true, if_false]
  exact findBelow_congr _ _ hbelow

/-- A visible entry takes its name over. -/
theorem find?_push (d : Dictionary σ) (name : String) (kind : Kind σ) :
    (d.push name kind).2.find? name = some d.size := by
  have hlast : (d.push name kind).2.entries[d.size]? = some ⟨.ofString name, kind, false⟩ := by
    have := d.get?_push name kind d.size
    rwa [if_pos rfl] at this
  have hname : (Name.ofString name == Name.ofString name) = true := (Name.beq_iff _ _).mpr rfl
  rw [find?, size_push, findBelow, hlast]
  simp [hname]

/-- Every other name keeps what it meant. -/
theorem find?_push_of_ne (d : Dictionary σ) {name word : String} (h : name ≠ word) (kind : Kind σ) :
    (d.push name kind).2.find? word = d.find? word := by
  have hlast : (d.push name kind).2.entries[d.size]? = some ⟨.ofString name, kind, false⟩ := by
    have := d.get?_push name kind d.size
    rwa [if_pos rfl] at this
  have hname : (Name.ofString name == Name.ofString word) = false :=
    Bool.eq_false_iff.mpr fun heq => h ((Name.beq_iff _ _).mp heq)
  have hbelow : ∀ xt < d.size, (d.push name kind).2.get? xt = d.get? xt := fun xt hx => by
    rw [get?_push, if_neg (by omega)]
  rw [find?, find?, size_push, findBelow, hlast]
  simp only [hname, Bool.and_false, Bool.false_eq_true, if_false]
  exact findBelow_congr _ _ hbelow

theorem entry?_push (d : Dictionary σ) (name : String) (entry : Nat) :
    entry? (d.push name (.compiled entry)).2 name = some entry := by
  unfold entry?
  rw [find?_push, Option.bind_some, get?_push, if_pos rfl]

theorem find?_of_sense? {d : Dictionary σ} {word : String} {xt : Nat} (h : d.sense? word = some (.word xt)) :
    d.find? word = some xt := by
  rw [sense?] at h
  cases hf : d.find? word with
  | some n => rw [hf] at h; cases h; rfl
  | none =>
    rw [hf] at h
    obtain ⟨v, -, hv⟩ := Option.map_eq_some_iff.mp h
    cases hv

theorem sense?_pushHidden (d : Dictionary σ) (name : String) (kind : Kind σ) (word : String) :
    (d.pushHidden name kind).2.sense? word = d.sense? word := by
  rw [sense?, sense?, find?_pushHidden]

theorem truncate_pushHidden (d : Dictionary σ) (name : String) (kind : Kind σ) :
    (d.pushHidden name kind).2.truncate d.size = d := by
  obtain ⟨entries⟩ := d
  simp [truncate, pushHidden, pushEntry, size]

theorem reveal_pushHidden (d : Dictionary σ) (name : String) (kind : Kind σ) :
    (d.pushHidden name kind).2.reveal d.size = (d.push name kind).2 := by
  obtain ⟨entries⟩ := d
  simp only [reveal, pushHidden, push, pushEntry, size, mk.injEq]
  apply Array.ext_getElem?
  intro i
  simp only [Array.getElem?_modify, Array.getElem?_push]
  grind

end Dictionary

theorem Spot.read_pushHidden (d : Dictionary σ) (name : String) (kind : Kind σ) (z : Spot) (p : Phrase) :
    z.read (d.pushHidden name kind).2 p = z.read d p := by
  cases p with
  | word t => rw [Spot.read, Spot.read, Dictionary.sense?_pushHidden]
  | control | define | comment => rfl
  | text u t body => cases body <;> rfl

/-! ## What compiling spares -/

/-- What compiling leaves of a memory: as if it had only grown, below the mark. -/
structure Memory.Spares (mark : Nat) (m m' : Memory) : Prop where
  capacity : m'.capacity = m.capacity
  here_le : m.here ≤ m'.here
  inside : m.here ≤ m.capacity → m'.here ≤ m'.capacity
  below : ∀ b < mark, b < m.here → m'.byteAt b = m.byteAt b

namespace Memory

theorem Spares.ordered (mark : Nat) : Ordered (Spares mark) where
  refl _ := ⟨rfl, Nat.le_refl _, id, fun _ _ _ => rfl⟩
  trans h g :=
    ⟨g.capacity.trans h.capacity, Nat.le_trans h.here_le g.here_le, fun hi => g.inside (h.inside hi),
      fun b hb hh => (g.below b hb (Nat.lt_of_lt_of_le hh h.here_le)).trans (h.below b hb hh)⟩

theorem Grows.spares {m m' : Memory} (h : m.Grows m') (mark : Nat) : m.Spares mark m' :=
  ⟨h.capacity, h.here_le, h.inside, fun b _ hb => h.below b hb⟩

theorem Spares.grows {m m' : Memory} (h : m.Spares m.here m') : m.Grows m' :=
  ⟨h.capacity, h.here_le, h.inside, fun b hb => h.below b hb hb⟩

theorem Stores.spares {a len mark : Nat} {m m' : Memory} (h : Stores a len m m') (ha : mark ≤ a) :
    m.Spares mark m' :=
  ⟨h.capacity, Nat.le_of_eq h.here.symm, fun hi => by rw [h.here, h.capacity]; exact hi,
    fun b hb _ => h.outside b (.inl (by omega))⟩

end Memory

/-- The holes of an open structure. -/
def Part.holes : Part → List Nat
  | .if_ hole | .else_ hole | .while_ _ hole => [hole]
  | .begin_ _ | .do_ _ => []

def Draft.holes (d : Draft) : List Nat := d.opened.flatMap (·.part.holes)

theorem Outer.le_start (entry : Nat) (o : Outer) : entry ≤ o.start entry := by
  rw [← o.length_bytes 0 entry]
  exact Nat.le_add_right ..

/-- The holes of a definition are in its own code. -/
theorem Outer.le_of_mem_holes {entry hole : Nat} (o : Outer) (h : hole ∈ (o.parts entry).flatMap (·.holes)) :
    entry ≤ hole := by
  induction o with
  | top => cases h
  | begin_ o before ih | do_ o before ih => exact ih h
  | if_ o before ih | else_ o before yes ih | while_ o before test ih =>
    rcases List.mem_append.mp h with h | h
    · have := o.le_start entry
      simp only [Part.holes, List.mem_singleton] at h
      omega
    · exact ih h

namespace Engine

theorem Drafting.le_hole {s : Engine σ} {entry : Nat} {d : Draft} {z : Spot} (hd : s.Drafting entry d z)
    {hole : Nat} (h : hole ∈ d.holes) : entry ≤ hole := by
  refine z.outer.le_of_mem_holes ?_
  rw [← hd.parts, List.flatMap_map]
  exact h

/-- A property that the parts of reading a text have and that sequencing keeps. -/
structure Reading (P : ∀ {α : Type}, Session σ α → Prop) : Prop where
  pure {α : Type} (a : α) : P (Pure.pure a)
  bind {α β : Type} {x : Session σ α} {f : α → Session σ β} : P x → (∀ a, P (f a)) → P (x >>= f)
  here {α : Type} {f : Nat → Session σ α} : (∀ n, P (f n)) → P (get >>= fun s => f s.machine.memory.here)
  sense {α : Type} (word : String) {f : Engine σ → Session σ α} :
    (∀ r, ∃ x, P x ∧ ∀ s, s.dict.sense? word = r → f s = x) → P (get >>= f)
  fail {α : Type} (f : Fault) : f.isOutput = false → P (fail f : Session σ α)
  cell (a : Nat) : P (onMachine (Machine.cell a))
  bumpCell (v : Cell) : P (onMemory (Memory.bumpCell v))
  bumpBytes (bytes : List UInt8) : P (onMemory (Memory.bumpBytes bytes))
  align : P (onMemory Memory.align)

namespace Reading

variable {P : ∀ {α : Type}, Session σ α → Prop} (h : Reading P)

include h

theorem discard {x : Session σ α} (hx : P x) : P (discard x) := by
  rw [discard_eq]
  exact h.bind hx fun _ => h.pure ()

theorem emit (v : Cell) : P (emit v : Session σ Unit) := h.discard (h.bumpCell v)

theorem emitToken (xt : Nat) : P (emitToken xt : Session σ Unit) := by
  unfold Engine.emitToken
  split
  · exact h.emit _
  · exact h.fail _ rfl

theorem emitWith (p : Primitive) (v : Cell) : P (emitWith p v : Session σ Unit) :=
  h.bind (h.emitToken _) fun _ => h.emit v

theorem emitBranch (p : Primitive) : P (emitBranch p : Session σ Nat) :=
  h.bind (h.emitToken _) fun _ => h.bumpCell 0

theorem getHere : P (getHere : Session σ Nat) := h.here fun n => h.pure n

theorem codeEnd : P (codeEnd : Session σ Cell) := h.bind h.getHere fun a => h.cell a

theorem emitString (p : Primitive) (text : String) : P (emitString p text : Session σ Unit) :=
  h.bind (h.cell _) fun v => h.bind (h.emitWith p v) fun _ =>
      h.bind (h.discard (h.bumpBytes _)) fun _ => h.align

end Reading

/-- A property that the parts of compiling have and that sequencing keeps. Branches are
    patched at or above `low` only. -/
structure Compiling (d : Draft) (low : Nat) (P : ∀ {α : Type}, Session σ α → Prop) :
    Prop extends Reading P where
  storeCell {hole : Nat} (v : Cell) : low ≤ hole → P (onMemory (Memory.storeCell hole v))
  setOpened (opened : List Open) : P (setOpened d opened)

namespace Compiling

variable {d : Draft} {low : Nat} {P : ∀ {α : Type}, Session σ α → Prop} (h : Compiling d low P)

include h

theorem patch {hole : Nat} (hm : low ≤ hole) : P (patch hole : Session σ Unit) :=
  h.bind h.codeEnd fun v => h.storeCell v hm

theorem compileControl (hh : ∀ hole ∈ d.holes, low ≤ hole) {k : Control} (hk : k ≠ .semicolon) (t : Token) :
    P (compileControl d k t : Session σ Unit) := by
  have hhead {o : Open} {outer : List Open} (e : d.opened = o :: outer) : ∀ hole ∈ o.part.holes, low ≤ hole :=
    fun hole hm => hh hole (by simp [Draft.holes, e, hm])
  unfold Engine.compileControl
  split
  next => exact h.bind (h.emitBranch _) fun _ => h.setOpened _
  next hole _ _ e =>
    have hp := h.patch (hhead e hole (List.mem_singleton.mpr rfl))
    exact h.bind (h.emitBranch _) fun _ => h.bind hp fun _ => h.setOpened _
  next hole _ _ e => exact h.bind (h.patch (hhead e hole (List.mem_singleton.mpr rfl))) fun _ => h.setOpened _
  next hole _ _ e => exact h.bind (h.patch (hhead e hole (List.mem_singleton.mpr rfl))) fun _ => h.setOpened _
  next => exact h.bind h.codeEnd fun _ => h.setOpened _
  next => exact h.bind (h.emitWith _ _) fun _ => h.setOpened _
  next => exact h.bind (h.emitWith _ _) fun _ => h.setOpened _
  next => exact h.bind (h.emitBranch _) fun _ => h.setOpened _
  next hole _ _ e =>
    have hp := h.patch (hhead e hole (List.mem_singleton.mpr rfl))
    exact h.bind (h.emitWith _ _) fun _ => h.bind hp fun _ => h.setOpened _
  next => exact h.bind (h.emitToken _) fun _ => h.bind h.codeEnd fun _ => h.setOpened _
  next => exact h.bind (h.emitWith _ _) fun _ => h.setOpened _
  next => exact h.bind (h.emitWith _ _) fun _ => h.setOpened _
  next => exact h.emitToken _
  next => exact h.emitToken _
  next => exact absurd rfl hk
  next => exact absurd rfl hk
  next => exact h.fail _ rfl

/-- Compiling a phrase, short of the one that ends the definition. -/
theorem compilePhrase (hh : ∀ hole ∈ d.holes, low ≤ hole) {p : Phrase} (hp : ∀ t, p ≠ .control .semicolon t) :
    P (compilePhrase d p : Session σ Unit) := by
  cases p with
  | word t =>
    refine h.sense t.text fun r => ?_
    rcases r with _ | ⟨xt⟩ | ⟨v⟩
    · exact ⟨_, h.fail _ rfl, fun s hs => by rw [hs]⟩
    · exact ⟨_, h.emitToken xt, fun s hs => by rw [hs]⟩
    · exact ⟨_, h.emitWith _ v, fun s hs => by rw [hs]⟩
  | control k t =>
    refine h.compileControl hh ?_ t
    rintro rfl
    exact hp t rfl
  | define => exact h.fail _ rfl
  | text u t body =>
    cases body with
    | none => exact h.fail _ rfl
    | some text => exact h.emitString _ _
  | comment closed => exact h.pure ()

/-- Compiling any phrase, if completing the definition has the property too. -/
theorem compileAny
    (hclose : P (modify fun s => { s with dict := s.dict.reveal d.xt, mode := .run } : Session σ Unit))
    (hh : ∀ hole ∈ d.holes, low ≤ hole) (p : Phrase) : P (Engine.compilePhrase d p : Session σ Unit) := by
  by_cases hp : ∀ t, p ≠ .control .semicolon t
  · exact h.compilePhrase hh hp
  · obtain ⟨t, rfl⟩ : ∃ t, p = .control .semicolon t := by simpa using hp
    obtain ⟨name, xt, mark, _ | ⟨o, opened⟩⟩ := d
    · exact h.bind (h.emitToken _) fun _ => hclose
    · exact h.fail _ rfl

end Compiling

/-! ## Confinement -/

/-- A definition with this token, begun at this mark, is being compiled. -/
def Drafts (xt mark : Nat) : Mode → Prop
  | .run => False
  | .compile d => d.xt = xt ∧ d.mark = mark

/-- Nothing has happened but to a definition. -/
structure Confined (xt mark : Nat) (s s' : Engine σ) : Prop where
  compiles : s.Compiles s'
  mode : Drafts xt mark s.mode → Drafts xt mark s'.mode
  memory : s.machine.memory.Spares mark s'.machine.memory

theorem Confined.ordered (xt mark : Nat) : Ordered (Confined (σ := σ) xt mark) where
  refl s := ⟨.refl s, id, (Memory.Spares.ordered mark).refl _⟩
  trans h g :=
    ⟨h.compiles.trans g.compiles, fun hm => g.mode (h.mode hm),
     (Memory.Spares.ordered mark).trans h.memory g.memory⟩

theorem stateAfter_onMachine (act : Act σ α) (s : Engine σ) :
    stateAfter (onMachine act) s = { s with machine := stateAfter act s.machine } := by
  unfold stateAfter
  rw [onMachine_eq]
  cases act s.machine <;> rfl

theorem confined_onMemory (xt mark : Nat) {op : Memory.Op α} (h : Keeps (Memory.Spares mark) op) :
    Keeps (Confined (σ := σ) xt mark) (onMemory op) := by
  intro s
  rw [onMemory, stateAfter_onMachine, Machine.stateAfter_onMemory]
  exact ⟨.withMemory s _, id, h s.machine.memory⟩

theorem confined_growing (xt mark : Nat) {op : Memory.Op α} (h : Keeps Memory.Grows op) :
    Keeps (Confined (σ := σ) xt mark) (onMemory op) :=
  confined_onMemory xt mark fun m => (h m).spares mark

theorem stateAfter_cell (a : Nat) (m : Machine σ) : stateAfter (Machine.cell a) m = m :=
  (Machine.keeps_cell ⟨fun _ => rfl, fun h g => Eq.trans h g⟩ a m).symm

theorem keeps_sense {R : Engine σ → Engine σ → Prop} (ho : Ordered R) {α : Type} (word : String)
    {f : Engine σ → Session σ α}
    (hf : ∀ r, ∃ x, Keeps R x ∧ ∀ s, s.dict.sense? word = r → f s = x) : Keeps R (get >>= f) := by
  refine .bind ho (.get ho) fun s => ?_
  obtain ⟨x, hx, heq⟩ := hf (s.dict.sense? word)
  rw [heq s rfl]
  exact hx

theorem compiling_confined (d : Draft) :
    Compiling d d.mark (fun x => Keeps (Confined (σ := σ) d.xt d.mark) x) := by
  have ho := Confined.ordered (σ := σ) d.xt d.mark
  refine ⟨⟨.pure ho, .bind ho, fun hf => .bind ho (.get ho) fun _ => hf _, keeps_sense ho,
      fun f _ => .throw ho _,
    fun a s => ?_, fun v => ?_, fun bytes => ?_, ?_⟩, ?_, fun opened => ?_⟩
  · rw [stateAfter_onMachine, stateAfter_cell]
    exact ho.refl s
  · exact confined_growing _ _ (Memory.keeps_bumpCell v)
  · exact confined_growing _ _ (Memory.keeps_bumpBytes bytes)
  · exact confined_growing _ _ Memory.keeps_align
  · intro hole v hm
    refine confined_onMemory _ _ fun m => ?_
    rcases e : Memory.storeCell hole v m with ⟨_, m'⟩ | ⟨f, m'⟩
    · rw [stateAfter_ok e, (Memory.storeCell_ok e).2]
      exact (Memory.setBytes_stores m hole v.toBytes).spares hm
    · rw [stateAfter_error e, Memory.storeCell_error e]
      exact (Memory.Spares.ordered d.mark).refl m
  · exact .modify fun s => ⟨.withMode s _, fun _ => ⟨rfl, rfl⟩, (Memory.Spares.ordered d.mark).refl _⟩

/-- Where it fails, it is by a fault, and not for want of room in the output. -/
def Faulting (x : Session σ α) : Prop := ∀ s e s', x s = .error e s' → ∃ f, e = .fault f ∧ f.isOutput = false

theorem faulting_onMachine {act : Act σ α} (ha : Act.Avoids Fault.isOutput act) :
    Faulting (onMachine act) := by
  intro s e s' h
  obtain ⟨f, m, rfl, hact, -⟩ := onMachine_error h
  exact ⟨f, rfl, ha s.machine f m hact⟩

theorem faulting_onMemory (op : Memory.Op α) : Faulting (onMemory op : Session σ α) :=
  faulting_onMachine (.onMemory (fun _ => rfl) op)

theorem compiling_faulting (d : Draft) : Compiling d 0 (fun x => Faulting (σ := σ) x) where
  pure _ _ _ _ h := by cases h
  bind hx hf s e s' h := by
    rcases bind_error_iff.mp h with h | ⟨a, s₁, -, h⟩
    · exact hx s e s' h
    · exact hf a s₁ e s' h
  here hf s := hf s.machine.memory.here s
  sense word f hf s e s' h := by
    obtain ⟨x, hx, heq⟩ := hf (s.dict.sense? word)
    rw [bind_of_ok (get_apply s), heq s rfl] at h
    exact hx s e s' h
  fail f hf _ _ _ h := by cases h; exact ⟨f, rfl, hf⟩
  cell a := faulting_onMachine (.cell (fun _ => rfl) a)
  bumpCell _ := faulting_onMemory _
  bumpBytes _ := faulting_onMemory _
  align := faulting_onMemory _
  storeCell _ _ := faulting_onMemory _
  setOpened _ _ _ _ h := by cases h

theorem compilePhrase_faulting (d : Draft) (p : Phrase) : Faulting (compilePhrase d p : Session σ Unit) :=
  (compiling_faulting d).compileAny (fun _ _ _ h => by cases h) (fun _ _ => Nat.zero_le _) p

/-- A phrase that does not compile is a fault, and has still been confined to the definition. -/
theorem compilePhrase_error {d : Draft} {p : Phrase} {s s' : Engine σ} {e : Halt}
    (hh : ∀ hole ∈ d.holes, d.mark ≤ hole)
    (h : compilePhrase d p s = .error e s') : (∃ f, e = .fault f) ∧ s.Confined d.xt d.mark s' := by
  obtain ⟨f, hf, -⟩ := compilePhrase_faulting d p s e s' h
  refine ⟨⟨f, hf⟩, ?_⟩
  by_cases hp : ∀ t, p ≠ .control .semicolon t
  · exact ((compiling_confined d).compilePhrase hh hp).of_error h
  · obtain ⟨t, rfl⟩ : ∃ t, p = .control .semicolon t := by simpa using hp
    have hconf := (compiling_confined (σ := σ) d).emitToken Primitive.exit.token
    obtain ⟨name, xt, mark, _ | ⟨o, opened⟩⟩ := d
    · rcases bind_error_iff.mp h with h | ⟨_, s₁, -, h⟩
      · exact hconf.of_error h
      · cases h
    · cases h
      exact (Confined.ordered xt mark).refl s

/-! ## From the colon to the semicolon -/

/-- All a program can see of the engine is as it was. -/
structure Intact (s s' : Engine σ) : Prop where
  engine : s' = s.withMemory s'.machine.memory
  capacity : s'.machine.memory.capacity = s.machine.memory.capacity
  here : s'.machine.memory.here = s.machine.memory.here
  below : ∀ a < s.machine.memory.here, s'.machine.memory.byteAt a = s.machine.memory.byteAt a

theorem Intact.refl (s : Engine σ) : s.Intact s := ⟨rfl, rfl, rfl, fun _ _ => rfl⟩

/-- Where the code of a definition begun now will stand. -/
def entry (s : Engine σ) : Nat := Memory.aligned s.machine.memory.here

/-- The definition of `w`, begun in the engine `s`, has come as far as `z`. -/
structure Underway (s : Engine σ) (w : String) (s₁ : Engine σ) (d : Draft) (z : Spot) : Prop where
  drafting : s₁.Drafting s.entry d z
  xt : d.xt = s.dict.size
  mark : d.mark = s.machine.memory.here
  engine : s₁ = { s.withMemory s₁.machine.memory with
    dict := (s.dict.pushHidden w (.compiled s.entry)).2
    mode := .compile d }
  memory : s.machine.memory.Grows s₁.machine.memory

/-- The definition of `w` as `b` has been completed. -/
structure Defined (s : Engine σ) (w : String) (b : Body) (s' : Engine σ) : Prop where
  engine : s' = { s.withMemory s'.machine.memory with dict := (s.dict.push w (.compiled s.entry)).2 }
  memory : s.machine.memory.Grows s'.machine.memory
  laid : s'.Laid s.entry (b.bytes s.dict.size s.entry ++ (Instr.plain .exit).bytes)
  fits : b.Each (Body.Fits s.dict.size) 0

section

variable {s s₁ s₂ s' : Engine σ} {w : String} {d : Draft} {z : Spot}

theorem Defined.dict {b : Body} (h : s.Defined w b s') :
    s'.dict = (s.dict.push w (.compiled s.entry)).2 := by rw [h.engine]

theorem Defined.token {b : Body} (h : s.Defined w b s') :
    s'.dict.get? s.dict.size = some ⟨.ofString w, .compiled s.entry, false⟩ := by
  rw [h.dict, Dictionary.get?_push, if_pos rfl]

theorem discardDraft_of_run (h : s.mode = .run) : s.discardDraft = s := by rw [discardDraft, h]

theorem recover_of_run (h : s.mode = .run) : s.recover = { s with machine := s.machine.reset } := by
  rw [recover, discardDraft_of_run h]

theorem discardDraft_of_compile (h : s.mode = .compile d) : s.discardDraft =
    { s with
      dict := s.dict.truncate d.xt
      machine := { s.machine with memory := s.machine.memory.truncate d.mark }
      mode := .run } := by
  rw [discardDraft, h]

/-- A definition that is taken back was never there. -/
theorem Underway.discard (hu : s.Underway w s₁ d z) (hm : s.mode = .run) (hc : s₁.Confined d.xt d.mark s₂) :
    s.Intact s₂.discardDraft := by
  have hmode := hc.mode (by rw [hu.drafting.mode]; exact ⟨rfl, rfl⟩)
  cases hd : s₂.mode with
  | run => rw [hd] at hmode; exact hmode.elim
  | compile d₂ =>
    rw [hd] at hmode
    obtain ⟨hx, hk⟩ := hmode
    have hmem := hc.memory
    rw [hu.mark] at hmem
    have hgrow := (Memory.Spares.ordered _).trans (hu.memory.spares s.machine.memory.here) hmem |>.grows
    have hengine : s₂ = { s.withMemory s₂.machine.memory with
        dict := (s.dict.pushHidden w (.compiled s.entry)).2
        mode := .compile d₂ } := by rw [hc.compiles, hd, hu.engine]; rfl
    rw [discardDraft_of_compile hd, hx, hu.xt, hk, hu.mark]
    refine ⟨?_, hgrow.capacity, Nat.min_eq_left hgrow.here_le, hgrow.below⟩
    rw [hengine]
    simp only [Dictionary.truncate_pushHidden, withMemory, ← hm]

theorem openDraft_ok (hv : s.machine.memory.Valid) (h : openDraft w s = .ok () s') :
    s.Underway w s' ⟨w, s.dict.size, s.machine.memory.here, []⟩ .start := by
  obtain ⟨mark, _, hg, h₁⟩ := bind_ok_iff.mp h
  cases hg
  obtain ⟨_, s₁, ha, h₂⟩ := bind_ok_iff.mp h₁
  obtain ⟨m, hm, rfl⟩ := onMemory_ok ha
  obtain ⟨entry, _, hg, h₃⟩ := bind_ok_iff.mp h₂
  cases hg
  cases h₃
  have hpad := Memory.align_appends hm
  have hentry : m.here = s.entry := Memory.here_align hv hm
  refine ⟨⟨rfl, Memory.dvd_aligned _, ⟨hpad.valid hv, hentry, rfl⟩, rfl, trivial, trivial⟩, rfl, rfl,
      ?_, hpad.toGrows⟩
  rw [← hentry]
  rfl

theorem openDraft_error {e : Halt} (h : openDraft w s = .error e s') : (∃ f, e = .fault f) ∧ s' = s := by
  rcases bind_error_iff.mp h with h | ⟨_, s₁, hg, h₁⟩
  · cases h
  cases hg
  rcases bind_error_iff.mp h₁ with h | ⟨_, s₁, -, h₂⟩
  · obtain ⟨f, m, hm, rfl, rfl⟩ := onMemory_error h
    rw [Memory.align_error hm]
    exact ⟨⟨_, rfl⟩, rfl⟩
  · cases h₂

theorem feedAll_append (fuel : Nat) (ps qs : List Phrase) :
    (feedAll fuel (ps ++ qs) : Session σ Unit) = (feedAll fuel ps >>= fun _ => feedAll fuel qs) := by
  funext s
  induction ps generalizing s with
  | nil => rfl
  | cons p ps ih =>
    rw [List.cons_append, feedAll, feedAll, bind_assoc]
    rw [bind_apply, bind_apply]
    cases feed fuel p s with
    | ok a s => exact ih s
    | error e s => rfl

theorem feed_of_run {fuel : Nat} {p : Phrase} (h : s.mode = .run) :
    feed fuel p s = interpretPhrase fuel p s := by
  rw [feed, bind_of_ok (get_apply s), h]

theorem feed_of_compile {fuel : Nat} {p : Phrase} (h : s.mode = .compile d) :
    feed fuel p s = compilePhrase d p s := by
  rw [feed, bind_of_ok (get_apply s), h]

theorem finish_of_run (h : s.mode = .run) : finish s = .ok () s := by
  rw [finish, bind_of_ok (get_apply s), h]
  rfl

theorem finish_of_compile (h : s.mode = .compile d) : finish s = .error (.fault d.unclosed) s := by
  rw [finish, bind_of_ok (get_apply s), h]
  rfl

theorem Underway.holes (hu : s.Underway w s₁ d z) (hv : s.machine.memory.Valid) :
    ∀ hole ∈ d.holes, d.mark ≤ hole := by
  intro hole hm
  rw [hu.mark]
  exact Nat.le_trans (Memory.le_aligned hv.here_le_maxNat) (hu.drafting.le_hole hm)

/-- A phrase that is compiled takes the definition one place on. -/
theorem Underway.step {p : Phrase} (hu : s.Underway w s₁ d z) (hv : s.machine.memory.Valid)
    (hp : ∀ t, p ≠ .control .semicolon t) (h : compilePhrase d p s₁ = .ok () s₂) :
    ∃ d' z', z.read s.dict p = some z' ∧ s.Underway w s₂ d' z' := by
  have hc := ((compiling_confined d).compilePhrase (hu.holes hv) hp).of_ok h
  obtain ⟨z', opened, hr, hd, hcomp⟩ := compilePhrase_ok hu.drafting hp h
  have hdict : s₁.dict = (s.dict.pushHidden w (.compiled s.entry)).2 := by rw [hu.engine]
  rw [hdict, Spot.read_pushHidden] at hr
  have hmem := hc.memory
  rw [hu.mark] at hmem
  refine ⟨_, z', hr, hd, hu.xt, hu.mark, ?_,
      ((Memory.Spares.ordered _).trans (hu.memory.spares _) hmem).grows⟩
  rw [hcomp, hd.mode, hu.engine]
  rfl

/-- The semicolon completes it. -/
theorem Underway.close {t : Token} (hu : s.Underway w s₁ d z) (hm : s.mode = .run)
    (h : compilePhrase d (.control .semicolon t) s₁ = .ok () s₂) :
    z.outer = .top ∧ s.Defined w z.body s₂ := by
  obtain ⟨htop, m, rfl, hl⟩ := compile_semicolon hu.drafting h
  have hlaid := hu.drafting.laid.lays hl
  obtain ⟨_, e, hm'⟩ := hl
  cases e
  obtain ⟨o, b⟩ := z
  cases htop
  rw [hu.xt] at hlaid
  have hfits := hu.drafting.fits.2
  rw [hu.xt] at hfits
  refine ⟨rfl, ?_, Memory.Grows.ordered.trans hu.memory hm'.toGrows,
      ⟨hlaid.valid, hlaid.here, hlaid.code⟩, hfits⟩
  have he := hu.engine
  obtain ⟨dict, machine, mode, budget⟩ := s₁
  injection he with hdict hmachine _ hbudget
  rw [hu.xt, hdict, hbudget, Dictionary.reveal_pushHidden, ← hm]
  show { s with dict := _, machine := { machine with memory := m } } =
      { s with dict := _, machine := { s.machine with memory := m } }
  rw [hmachine]
  rfl

/-- Phrases that are compiled, none of them a semicolon, can be read. -/
theorem Underway.reads {fuel : Nat} {ps : List Phrase} (hu : s.Underway w s₁ d z)
    (hv : s.machine.memory.Valid)
    (hps : ∀ p ∈ ps, ∀ t, p ≠ .control .semicolon t) (h : feedAll fuel ps s₁ = .ok () s₂) :
    ∃ d' z', z.readAll s.dict ps = some z' ∧ s.Underway w s₂ d' z' := by
  induction ps generalizing s₁ d z with
  | nil => cases h; exact ⟨d, z, rfl, hu⟩
  | cons p ps ih =>
    obtain ⟨_, s', hp, hrest⟩ := bind_ok_iff.mp h
    rw [feed_of_compile hu.drafting.mode] at hp
    obtain ⟨d₁, z₁, hz, hu₁⟩ := hu.step hv (hps p List.mem_cons_self) hp
    obtain ⟨d₂, z₂, hread, hu₂⟩ := ih hu₁ (fun q hq => hps q (List.mem_cons_of_mem p hq)) hrest
    refine ⟨d₂, z₂, ?_, hu₂⟩
    rw [Spot.readAll, hz]
    exact hread

/-- Phrases that are compiled take the definition where they are read. -/
theorem Underway.readAll {fuel : Nat} {ps : List Phrase} {z' : Spot} (hu : s.Underway w s₁ d z)
    (hv : s.machine.memory.Valid)
    (hr : z.readAll s.dict ps = some z') (h : feedAll fuel ps s₁ = .ok () s₂) :
    ∃ d', s.Underway w s₂ d' z' := by
  obtain ⟨d', z₂, hread, hu'⟩ := hu.reads hv (fun p hp t => Spot.ne_semicolon_of_readAll hr hp) h
  rw [hr] at hread
  cases hread
  exact ⟨d', hu'⟩

/-- After a colon with a name, phrases that were read to some place have taken the definition there. -/
theorem underway_of_readAll {fuel : Nat} {ps : List Phrase} {t : Token} (hv : s.machine.memory.Valid)
    (hm : s.mode = .run) (hr : Spot.start.readAll s.dict ps = some z)
    (h : feedAll fuel (.define .colon t (some w) :: ps) s = .ok () s') :
    ∃ d, s.Underway w s' d z := by
  obtain ⟨_, s₁, hopen, hbody⟩ := bind_ok_iff.mp h
  rw [feed_of_run hm] at hopen
  exact (openDraft_ok hv hopen).readAll hv hr hbody

/-- What is read between a colon with a name and a semicolon is defined. -/
theorem defined_of_readAll {fuel : Nat} {ps : List Phrase} {b : Body} {t u : Token}
    (hv : s.machine.memory.Valid)
    (hm : s.mode = .run) (hr : Spot.start.readAll s.dict ps = some ⟨.top, b⟩)
    (h : feedAll fuel (.define .colon t (some w) :: ps ++ [.control .semicolon u]) s = .ok () s') :
    s.Defined w b s' := by
  rw [feedAll_append] at h
  obtain ⟨_, s₂, hbody, hclose⟩ := bind_ok_iff.mp h
  obtain ⟨d, hu⟩ := underway_of_readAll hv hm hr hbody
  obtain ⟨_, s₃, hsemicolon, hnil⟩ := bind_ok_iff.mp hclose
  rw [feed_of_compile hu.drafting.mode] at hsemicolon
  cases hnil
  exact (hu.close hm hsemicolon).2

/-- The text of a body, between a colon with a name and a semicolon, defines it. -/
theorem defined_of_reads {fuel : Nat} {ps : List Phrase} {b : Body} {t u : Token}
    (hv : s.machine.memory.Valid) (hm : s.mode = .run) (hr : Reads s.dict ps b)
    (h : feedAll fuel (.define .colon t (some w) :: ps ++ [.control .semicolon u]) s = .ok () s') :
    s.Defined w b s' :=
  defined_of_readAll hv hm (hr.readAll .top) h

/-- However the text goes on, the definition is completed by it or taken back. -/
theorem Underway.outcome (hu : s.Underway w s₁ d z) (hv : s.machine.memory.Valid) (hm : s.mode = .run)
    (fuel : Nat) (ps : List Phrase) :
    (∃ f s', (feedAll fuel ps >>= fun _ => finish) s₁ = .error (.fault f) s' ∧ s.Intact s'.discardDraft) ∨
    (∃ qs t rest b s', ps = qs ++ .control .semicolon t :: rest ∧
      feedAll fuel (qs ++ [.control .semicolon t]) s₁ = .ok () s' ∧ z.readAll s.dict qs = some ⟨.top, b⟩ ∧
      s.Defined w b s') := by
  induction ps generalizing s₁ d z with
  | nil =>
    exact .inl ⟨d.unclosed, s₁, finish_of_compile hu.drafting.mode,
        hu.discard hm ((Confined.ordered _ _).refl s₁)⟩
  | cons p ps ih =>
    rw [feedAll, bind_assoc]
    have hfeed : feed fuel p s₁ = compilePhrase d p s₁ := feed_of_compile hu.drafting.mode
    rcases h : compilePhrase d p s₁ with ⟨_, s₂⟩ | ⟨e, s₂⟩
    · rw [h] at hfeed
      by_cases hp : ∀ t, p ≠ .control .semicolon t
      · obtain ⟨d', z', hr, hu'⟩ := hu.step hv hp h
        rcases ih hu' with ⟨f, s', hrun, hi⟩ | ⟨qs, t, rest, b, s', rfl, hrun, hread, hdef⟩
        · exact .inl ⟨f, s', by rw [bind_of_ok hfeed]; exact hrun, hi⟩
        · refine .inr ⟨p :: qs, t, rest, b, s', rfl, ?_, ?_, hdef⟩
          · rw [List.cons_append, feedAll, bind_of_ok hfeed]
            exact hrun
          · rw [Spot.readAll, hr]
            exact hread
      · obtain ⟨t, rfl⟩ : ∃ t, p = .control .semicolon t := by simpa using hp
        obtain ⟨htop, hdef⟩ := hu.close hm h
        refine .inr ⟨[], t, ps, z.body, s₂, rfl, ?_, ?_, hdef⟩
        · rw [List.nil_append, feedAll, bind_of_ok hfeed]
          rfl
        · rw [← htop]
          rfl
    · rw [h] at hfeed
      obtain ⟨⟨f, rfl⟩, hc⟩ := compilePhrase_error (hu.holes hv) h
      exact .inl ⟨f, s₂, bind_of_error hfeed, hu.discard hm hc⟩

/-- A colon begins a definition that the text completes or that is taken back. -/
theorem colon_outcome (hv : s.machine.memory.Valid) (hm : s.mode = .run) (fuel : Nat) (t : Token)
    (name : Option String) (ps : List Phrase) :
    (∃ f s', (feedAll fuel (.define .colon t name :: ps) >>= fun _ => finish) s = .error (.fault f) s' ∧
      s.Intact s'.discardDraft) ∨
    (∃ w qs u rest b s', name = some w ∧ ps = qs ++ .control .semicolon u :: rest ∧
      feedAll fuel (.define .colon t name :: qs ++ [.control .semicolon u]) s = .ok () s' ∧
      Spot.start.readAll s.dict qs = some ⟨.top, b⟩ ∧ s.Defined w b s') := by
  cases name with
  | none =>
    refine .inl ⟨.missingName t.text t.location, s, ?_, ?_⟩
    · rw [feedAll, bind_assoc]
      refine bind_of_error ?_
      rw [feed_of_run hm]
      rfl
    · rw [discardDraft_of_run hm]
      exact .refl s
  | some w =>
    have hfeed : feed fuel (.define .colon t (some w)) s = openDraft w s := feed_of_run hm
    rcases h : openDraft w s with ⟨_, s₁⟩ | ⟨e, s₁⟩
    · rw [h] at hfeed
      rcases (openDraft_ok hv h).outcome hv hm fuel ps with
        ⟨f, s', hrun, hi⟩ | ⟨qs, u, rest, b, s', rfl, hrun, hread, hdef⟩
      · refine .inl ⟨f, s', ?_, hi⟩
        rw [feedAll, bind_assoc, bind_of_ok hfeed]
        exact hrun
      · refine .inr ⟨w, qs, u, rest, b, s', rfl, rfl, ?_, hread, hdef⟩
        rw [List.cons_append, feedAll, bind_of_ok hfeed]
        exact hrun
    · rw [h] at hfeed
      obtain ⟨⟨f, rfl⟩, rfl⟩ := openDraft_error h
      refine .inl ⟨f, s₁, ?_, ?_⟩
      · rw [feedAll, bind_assoc]
        exact bind_of_error hfeed
      · rw [discardDraft_of_run hm]
        exact .refl s₁

end

/-- What holds before a text is read, and is kept by each phrase that acts at once and by each
    definition, holds when it has been read; where the reading fails, what each of them
    guarantees then holds of the engine without the definition it was in. -/
theorem reading_induction {fuel : Nat} {P : List Phrase → Engine σ → Prop} {Q : Engine σ → Prop}
    (ready : ∀ {ps s}, P ps s → s.mode = .run ∧ s.machine.memory.Valid)
    (phrase : ∀ {p ps s s'}, P (p :: ps) s → (∀ t name, p ≠ .define .colon t name) →
      interpretPhrase fuel p s = .ok () s' → P ps s')
    (stopped : ∀ {p ps s e s'}, P (p :: ps) s → (∀ t name, p ≠ .define .colon t name) →
      interpretPhrase fuel p s = .error e s' → Q s'.discardDraft)
    (undone : ∀ {ps s s'}, P ps s → s.Intact s' → Q s')
    (defined : ∀ {t w qs u rest b s s'},
      P ((.define .colon t (some w) :: qs ++ [.control .semicolon u]) ++ rest) s →
      feedAll fuel (.define .colon t (some w) :: qs ++ [.control .semicolon u]) s = .ok () s' →
      Spot.start.readAll s.dict qs = some ⟨.top, b⟩ → s.Defined w b s' → P rest s')
    (ps : List Phrase) {s : Engine σ} (hs : P ps s) :
    match (feedAll fuel ps >>= fun _ => finish) s with
    | .ok _ s' => P [] s'
    | .error _ s' => Q s'.discardDraft := by
  -- On the number of phrases left, since a definition takes several of them at once.
  induction hn : ps.length using Nat.strongRecOn generalizing ps s with
  | ind n ih =>
    subst hn
    obtain ⟨hm, hv⟩ := ready hs
    cases ps with
    | nil =>
      have hf : (feedAll fuel [] >>= fun _ => finish) s = .ok () s := finish_of_run hm
      rw [hf]
      exact hs
    | cons p ps =>
      by_cases hp : ∀ t name, p ≠ .define .colon t name
      · rw [feedAll, bind_assoc, bind_apply, feed_of_run hm]
        cases h : interpretPhrase fuel p s with
        | ok a s₁ => exact ih ps.length (Nat.lt_succ_self _) ps (phrase hs hp h) rfl
        | error e s₁ => exact stopped hs hp h
      · obtain ⟨t, name, rfl⟩ : ∃ t name, p = .define .colon t name := by simpa using hp
        rcases colon_outcome hv hm fuel t name ps with
          ⟨f, s', hrun, hi⟩ | ⟨w, qs, u, rest, b, s', rfl, rfl, hrun, hr, hd⟩
        · rw [hrun]
          exact undone hs hi
        · have hsplit : (.define .colon t (some w) :: (qs ++ .control .semicolon u :: rest) : List Phrase) =
              (.define .colon t (some w) :: qs ++ [.control .semicolon u]) ++ rest := by simp
          rw [hsplit] at hs ⊢
          rw [feedAll_append, bind_assoc, bind_of_ok hrun]
          refine ih rest.length ?_ rest (defined hs hrun hr hd) rfl
          simp only [List.length_cons, List.length_append]
          omega

/-- The stacks, the output, the host's state and every byte handed out are as they were. -/
structure Untouched (s s' : Engine σ) : Prop where
  data : s'.machine.data = s.machine.data
  ret : s'.machine.ret = s.machine.ret
  output : s'.machine.output = s.machine.output
  host : s'.machine.host = s.machine.host
  below : ∀ a < s.machine.memory.here, s'.machine.memory.byteAt a = s.machine.memory.byteAt a

/-- A definition either fails, and what is left after it is taken back is what was there, or is
    completed, and one visible entry is new. Nothing else changes, whatever the text. -/
theorem definition_all_or_nothing {s : Engine σ} (hm : s.mode = .run) (hv : s.machine.memory.Valid)
    (fuel : Nat) (t : Token) (name : Option String) (ps : List Phrase) :
    (∃ f s', (feedAll fuel (.define .colon t name :: ps) >>= fun _ => finish) s = .error (.fault f) s' ∧
      s'.discardDraft.mode = .run ∧ s'.discardDraft.dict = s.dict ∧
      s'.discardDraft.machine.memory.here = s.machine.memory.here ∧ s.Untouched s'.discardDraft) ∨
    (∃ w body u rest s', name = some w ∧ ps = body ++ .control .semicolon u :: rest ∧
      feedAll fuel (.define .colon t name :: body ++ [.control .semicolon u]) s = .ok () s' ∧ s'.mode = .run ∧
      s'.dict = (s.dict.push w (.compiled (Memory.aligned s.machine.memory.here))).2 ∧ s.Untouched s') := by
  rcases colon_outcome hv hm fuel t name ps with
    ⟨f, s', hrun, hi⟩ | ⟨w, qs, u, rest, b, s', hn, hps, hrun, -, hdef⟩
  · have he := hi.engine
    refine .inl ⟨f, s', hrun, by rw [he]; exact hm, by rw [he]; rfl, hi.here, ?_, ?_, ?_, ?_, hi.below⟩
    all_goals rw [he]; rfl
  · have he := hdef.engine
    refine .inr ⟨w, qs, u, rest, s', hn, hps, hrun,
        by rw [he]; exact hm, by rw [he]; rfl, ?_, ?_, ?_, ?_, hdef.memory.below⟩
    all_goals rw [he]; rfl

/-- An engine as a host makes it. -/
def fresh : Engine Unit := new {} () Primitive.words

/-- The colon and the name of the text `: square dup * ;`. -/
def squareColon : Token := ⟨":", ⟨"square", 1, 1⟩⟩

/-- What is left of a text of that name behind `: square`. -/
def squareRest (text : String) : List Phrase := (Source.ofText "square" text).phrases

theorem square_completes :
    succeeds (feedAll 0 (.define .colon squareColon (some "square") :: squareRest "dup * ;") >>=
      fun _ => finish) fresh = true ∧
    squareRest "dup *" = [.word ⟨"dup", ⟨"square", 1, 1⟩⟩, .word ⟨"*", ⟨"square", 1, 5⟩⟩] := by
  decide +kernel

/-- With its semicolon the definition is completed, without it nothing is left of it. -/
theorem definition_all_or_nothing_square :
    fresh.mode = .run ∧ fresh.machine.memory.Valid ∧
    (∃ body u rest s', squareRest "dup * ;" = body ++ .control .semicolon u :: rest ∧
      feedAll 0 (.define .colon squareColon (some "square") :: body ++ [.control .semicolon u]) fresh =
        .ok () s' ∧
      s'.mode = .run ∧ s'.dict = (fresh.dict.push "square" (.compiled 0)).2 ∧ fresh.Untouched s') ∧
    (∃ f s',
      (feedAll 0 (.define .colon squareColon (some "square") :: squareRest "dup *") >>= fun _ => finish) fresh =
        .error (.fault f) s' ∧
      s'.discardDraft.mode = .run ∧ s'.discardDraft.dict = fresh.dict ∧
      s'.discardDraft.machine.memory.here = fresh.machine.memory.here ∧ fresh.Untouched s'.discardDraft) := by
  have hv : fresh.machine.memory.Valid := Memory.valid_empty _
  obtain ⟨hsucceeds, hcut⟩ := square_completes
  refine ⟨rfl, hv, ?_, ?_⟩
  · rcases definition_all_or_nothing rfl hv 0 squareColon (some "square") (squareRest "dup * ;") with
      ⟨f, s', hrun, -⟩ | ⟨w, body, u, rest, s', hw, hps, hrun, hmode, hdict, huntouched⟩
    · rw [ok_of_succeeds hsucceeds] at hrun
      cases hrun
    · cases hw
      exact ⟨body, u, rest, s', hps, hrun, hmode, hdict, huntouched⟩
  · rcases definition_all_or_nothing rfl hv 0 squareColon (some "square") (squareRest "dup *") with
      hundone | ⟨w, body, u, rest, s', -, hps, -⟩
    · exact hundone
    · have hmem : Phrase.control .semicolon u ∈ squareRest "dup *" := by rw [hps]; simp
      rw [hcut] at hmem
      simp at hmem

end Engine

end Handheld
