/-
  Handheld.Proofs.Diagnosis — a definition compiles exactly when its text is in the grammar.

  With room enough nothing that is laid down can fail (`Affords`). What is left to go wrong is
  the text: the compiler goes on as long as the recogniser of `Handheld.Proofs.Grammar` does,
  with the same structures open, and stops where it stops, with its fault
  (`Underway.accepted`, `Underway.refused`). So a definition is completed if and only if its
  text is that of a body, and otherwise the fault is that of the first phrase out of place
  (`definition_recognised`).
-/

import Handheld.Proofs.Placement
import Mathlib.Control.Monad.Basic

namespace Handheld

variable {σ α β : Type}

/-! ## Room for code -/

namespace Engine

theorem onMachine_cell_of_le {a : Nat} (h : a ≤ Cell.maxNat) (s : Engine σ) :
    onMachine (Machine.cell a) s = .ok (Int32.ofNat a) s := by
  rw [onMachine_eq, Machine.cell_of_le h]
  rfl

theorem Lays.capacity {s s' : Engine σ} {bytes : List UInt8} (h : s.Lays bytes s') :
    s'.machine.memory.capacity = s.machine.memory.capacity := by
  obtain ⟨m, rfl, hm⟩ := h
  exact hm.capacity

theorem Lays.mode {s s' : Engine σ} {bytes : List UInt8} (h : s.Lays bytes s') : s'.mode = s.mode := by
  obtain ⟨m, rfl, -⟩ := h
  rfl

/-- The computation takes `n` bytes: wherever an instruction may be laid down, from `low` on and
    in a mode with `P`, it succeeds if there is so much room, and leaves a mode with `Q`. -/
def Affords (low n : Nat) (P Q : Mode → Prop) (x : Session σ α) : Prop :=
  ∀ s : Engine σ, s.Ready → P s.mode → low ≤ s.machine.memory.here →
    s.machine.memory.here + n ≤ s.machine.memory.capacity →
    ∃ a s', x s = .ok a s' ∧ s'.Ready ∧ Q s'.mode ∧ s'.machine.memory.here = s.machine.memory.here + n ∧
      s'.machine.memory.capacity = s.machine.memory.capacity

namespace Affords

variable {low n k : Nat} {P Q R : Mode → Prop}

theorem bind {x : Session σ α} {f : α → Session σ β} (hx : Affords low n P Q x)
    (hf : ∀ a, Affords low k Q R (f a)) : Affords low (k + n) P R (x >>= f) := by
  intro s hr hp hlow hroom
  obtain ⟨a, s₁, h₁, hr₁, hq, hhere, hcap⟩ := hx s hr hp hlow (by omega)
  obtain ⟨b, s₂, h₂, hr₂, hrest, hhere₂, hcap₂⟩ := hf a s₁ hr₁ hq (by omega) (by omega)
  exact ⟨b, s₂, by rw [bind_of_ok h₁, h₂], hr₂, hrest, by omega, by omega⟩

theorem discard {x : Session σ α} (hx : Affords low n P Q x) : Affords low n P Q (discard x) := by
  intro s hr hp hlow hroom
  obtain ⟨a, s', h, hrest⟩ := hx s hr hp hlow hroom
  exact ⟨(), s', discard_ok_iff.mpr ⟨a, h⟩, hrest⟩

theorem of_lays {x : Session σ α} {bytes : List UInt8} (hn : bytes.length = n) (hd : 4 ∣ n)
    (h : ∀ s : Engine σ, s.Ready → s.machine.memory.here + n ≤ s.machine.memory.capacity →
      ∃ a s', x s = .ok a s' ∧ s.Lays bytes s') : Affords low n P P x := by
  intro s hr hp _ hroom
  obtain ⟨a, s', hx, hl⟩ := h s hr hroom
  exact ⟨a, s', hx, hl.ready hr (by rw [hn]; exact hd),
      by rw [hl.mode]; exact hp, by rw [hl.here, hn], hl.capacity⟩

theorem bumpCell (v : Cell) : Affords low 4 P P (onMemory (Memory.bumpCell v) : Session σ Nat) := by
  have hlen : v.toBytes.length = 4 := rfl
  refine of_lays hlen ⟨1, rfl⟩ fun s hr hroom => ?_
  obtain ⟨m, hm⟩ := Memory.bumpCell_of_le v hr.valid hr.aligned hroom
  have h : onMemory (Memory.bumpCell v) s = .ok _ _ := onMemory_of_ok hm
  exact ⟨_, _, h, (bumpCell_lays hr h).2⟩

theorem emitToken {xt : Nat} (hx : xt ≤ Cell.maxNat) : Affords low 4 P P (emitToken xt : Session σ Unit) := by
  unfold Engine.emitToken
  rw [Cell.ofNat?_of_le hx]
  exact (bumpCell _).discard

theorem emitPrimitive (p : Primitive) (hp : p.isControl = true) :
    Affords low 4 P P (emitPrimitive p : Session σ Unit) := by
  obtain ⟨ht, -⟩ := Primitive.runtime_token hp
  exact emitToken (Nat.le_trans (Nat.le_of_lt ht) (by decide))

theorem emitWith (p : Primitive) (hp : p.isControl = true) (v : Cell) :
    Affords low 8 P P (emitWith p v : Session σ Unit) :=
  (emitPrimitive p hp).bind fun _ => (bumpCell v).discard

theorem emitBranch (p : Primitive) (hp : p.isControl = true) :
    Affords low 8 P P (emitBranch p : Session σ Nat) :=
  (emitPrimitive p hp).bind fun _ => bumpCell 0

theorem codeEnd : Affords low 0 P P (codeEnd : Session σ Cell) := fun s hr hp _ _ =>
  ⟨_, s, onMachine_cell_of_le hr.valid.here_le_maxNat s, hr, hp, rfl, rfl⟩

/-- A hole that was left behind can be filled in. -/
theorem storeCell {hole : Nat} (hh : hole + 4 ≤ low) (v : Cell) :
    Affords low 0 P P (onMemory (Memory.storeCell hole v) : Session σ Unit) := by
  intro s hr hp hlow _
  have hin := hr.valid.here_le
  have hstore :
      Memory.storeCell hole v s.machine.memory = .ok () (s.machine.memory.setBytes hole v.toBytes) := by
    rw [Memory.storeCell_eq, if_pos (Memory.inBounds_iff.mpr (by omega))]
  have hs := Memory.setBytes_stores s.machine.memory hole v.toBytes
  generalize s.machine.memory.setBytes hole v.toBytes = m at hs hstore
  refine ⟨(), s.withMemory m, onMemory_of_ok hstore, ⟨⟨?_, ?_⟩, ?_⟩, hp, hs.here, hs.capacity⟩
  · rw [memory_withMemory, hs.here, hs.capacity]
    exact hin
  · rw [memory_withMemory, hs.capacity]
    exact hr.valid.capacity_le
  · rw [memory_withMemory, hs.here]
    exact hr.aligned

theorem patch {hole : Nat} (hh : hole + 4 ≤ low) : Affords low 0 P P (patch hole : Session σ Unit) :=
  codeEnd.bind fun v => storeCell hh v

theorem emitString (u : StringUse) (text : String) :
    Affords low (Instr.string u text).size P P (emitString (stringPrimitive u) text : Session σ Unit) := by
  refine of_lays (Instr.length_bytes _) (Instr.dvd_size _) fun s hr hroom => ?_
  have hsize : (Instr.string u text).size = 8 + wholeCells (Text.utf8 text).length := rfl
  have hwhole : (Text.utf8 text).length ≤ wholeCells (Text.utf8 text).length := by unfold wholeCells; omega
  have hmax := hr.valid.capacity_le
  have hcell : (Text.utf8 text).length ≤ Cell.maxNat := by omega
  have hp : (stringPrimitive u).isControl = true := by cases u <;> rfl
  have hafford :
      Affords 0 8 (fun _ => True) (fun _ => True) (Engine.emitWith (σ := σ) (stringPrimitive u) _) :=
    emitWith _ hp (Int32.ofNat (Text.utf8 text).length)
  obtain ⟨_, s₁, hwith, hr₁, -, hhere, hcap⟩ := hafford s hr trivial (Nat.zero_le _) (by omega)
  obtain ⟨m₂, hbytes⟩ := Memory.bumpBytes_of_le (m := s₁.machine.memory) (Text.utf8 text) (by omega)
  have happ := (Memory.bumpBytes_appends hbytes).2
  have hv₂ := happ.valid hr₁.valid
  have h4 := hr.aligned
  obtain ⟨m₃, halign⟩ := Memory.align_of_le hv₂ (by
    rw [Memory.aligned_of_le hv₂.here_le_maxNat, happ.here, happ.capacity]
    unfold wholeCells at hsize
    omega)
  have hrun : Engine.emitString (stringPrimitive u) text s = .ok () ((s₁.withMemory m₂).withMemory m₃) := by
    rw [Engine.emitString, bind_of_ok (onMachine_cell_of_le hcell s), bind_of_ok hwith,
      bind_of_ok (discard_ok_iff.mpr ⟨_, onMemory_of_ok hbytes⟩)]
    exact onMemory_of_ok halign
  exact ⟨(), _, hrun, (emitString_lays hr hrun).2⟩

end Affords

end Engine

/-! ## The structures the compiler has open -/

/-- An open structure as the recogniser sees it. -/
def Open.pending (o : Open) : Pending where
  stage :=
    match o.part with
    | .if_ _ => .inIf
    | .else_ _ => .inElse
    | .begin_ _ => .inBegin
    | .while_ _ _ => .inWhile
    | .do_ _ => .inDo
  location := o.location

theorem Open.unterminated_pending (o : Open) : o.pending.unterminated = o.unterminated := by
  obtain ⟨part, location⟩ := o
  cases part <;> rfl

def Draft.pending (d : Draft) : List Pending := d.opened.map Open.pending

/-- The definition `d` is being compiled, with these structures open. -/
def Draft.Goes (d : Draft) (open_ : List Pending) (mode : Mode) : Prop :=
  ∃ opened, mode = .compile { d with opened := opened } ∧ opened.map Open.pending = open_

/-- The bytes that a control word lays down. -/
def Control.room : Control → Nat
  | .if_ | .else_ | .until_ | .again_ | .while_ | .repeat_ | .loop_ | .plusLoop => 8
  | .do_ | .recurse | .exit | .semicolon => 4
  | .then_ | .begin_ => 0

/-- The bytes that a phrase lays down. -/
def Phrase.room (d : Dictionary σ) : Phrase → Nat
  | .word t =>
    match d.sense? t.text with
    | some (.word _) => 4
    | some (.literal _) => 8
    | none => 0
  | .control k _ => k.room
  | .text u _ (some body) => (Instr.string u body).size
  | .text _ _ none | .define _ _ _ | .comment _ => 0

/-- The holes around a part lie before it. -/
theorem Outer.hole_le {entry hole : Nat} (o : Outer) (h : hole ∈ (o.parts entry).flatMap (·.holes)) :
    hole + 4 ≤ o.start entry := by
  induction o with
  | top => cases h
  | begin_ o before ih | do_ o before ih =>
    have := ih h
    simp only [start]
    omega
  | if_ o before ih | else_ o before b ih | while_ o before b ih =>
    simp only [start]
    rcases List.mem_append.mp h with h | h
    · simp only [Part.holes, List.mem_singleton] at h
      omega
    · have := ih h
      omega

theorem Dictionary.lt_size_of_sense? {d : Dictionary σ} {word : String} {xt : Nat}
    (h : d.sense? word = some (.word xt)) : xt < d.size := by
  obtain ⟨e, he, -⟩ := find?_visible (find?_of_sense? h)
  exact (Array.getElem?_eq_some_iff.mp he).1

namespace Engine

theorem Drafting.hole_le {s : Engine σ} {entry hole : Nat} {d : Draft} {z : Spot} (hd : s.Drafting entry d z)
    (h : hole ∈ d.holes) : hole + 4 ≤ s.machine.memory.here := by
  rw [hd.here]
  refine Nat.le_trans (z.outer.hole_le ?_) (Nat.le_add_right _ _)
  rw [← hd.parts, List.flatMap_map]
  exact h

theorem Affords.setOpened {low : Nat} {P : Mode → Prop} (d : Draft) (opened : List Open) :
    Affords low 0 P (d.Goes (opened.map Open.pending)) (setOpened d opened : Session σ Unit) :=
  fun _ hr _ _ _ =>
  ⟨(), _, rfl, ⟨hr.valid, hr.aligned⟩, ⟨opened, rfl, rfl⟩, rfl, rfl⟩

/-- A control word does to the open structures what it does in the recogniser. -/
theorem compileControl_affords {d : Draft} {low : Nat} {k : Control} {t : Token} {next : List Pending}
    (hh : ∀ hole ∈ d.holes, hole + 4 ≤ low) (hx : d.xt ≤ Cell.maxNat)
    (h : k.step? t.location d.pending = some next) :
    Affords low k.room (d.Goes d.pending) (d.Goes next) (compileControl d k t : Session σ Unit) := by
  obtain ⟨name, xt, mark, opened⟩ := d
  have hhead {o : Open} {outer : List Open} (e : opened = o :: outer) :
      ∀ hole ∈ o.part.holes, hole + 4 ≤ low :=
    fun hole hm => hh hole (by simp [Draft.holes, e, hm])
  cases k
  case if_ =>
    cases h
    exact (Affords.emitBranch _ rfl).bind fun _ => .setOpened _ _
  case begin_ =>
    cases h
    exact Affords.codeEnd.bind fun _ => .setOpened _ _
  case do_ =>
    cases h
    exact (Affords.emitPrimitive _ rfl).bind fun _ => Affords.codeEnd.bind fun _ => .setOpened _ _
  case recurse =>
    cases h
    exact .emitToken hx
  case exit =>
    cases h
    exact .emitPrimitive _ rfl
  case semicolon => cases h
  -- the others are about the innermost structure
  all_goals
    rcases opened with _ | ⟨⟨part, location⟩, outer⟩
    · cases h
  case else_ =>
    cases part with
    | if_ hole =>
      cases h
      have hole_le := hhead rfl hole (List.mem_singleton.mpr rfl)
      exact (Affords.emitBranch _ rfl).bind fun _ => (Affords.patch hole_le).bind fun _ => .setOpened _ _
    | _ => cases h
  case then_ =>
    cases part with
    | if_ hole | else_ hole =>
      cases h
      have hole_le := hhead rfl hole (List.mem_singleton.mpr rfl)
      exact (Affords.patch hole_le).bind fun _ => .setOpened _ _
    | _ => cases h
  case until_ | again_ =>
    cases part with
    | begin_ start =>
      cases h
      exact (Affords.emitWith _ rfl _).bind fun _ => .setOpened _ _
    | _ => cases h
  case while_ =>
    cases part with
    | begin_ start =>
      cases h
      exact (Affords.emitBranch _ rfl).bind fun _ => .setOpened _ _
    | _ => cases h
  case repeat_ =>
    cases part with
    | while_ start hole =>
      cases h
      have hole_le := hhead rfl hole (List.mem_singleton.mpr rfl)
      exact (Affords.emitWith _ rfl _).bind fun _ => (Affords.patch hole_le).bind fun _ => .setOpened _ _
    | _ => cases h
  case loop_ | plusLoop =>
    cases part with
    | do_ body =>
      cases h
      exact (Affords.emitWith _ rfl _).bind fun _ => .setOpened _ _
    | _ => cases h

/-- One that the recogniser does not allow is not compiled. -/
theorem compileControl_unmatched {d : Draft} {k : Control} {t : Token} (hk : k ≠ .semicolon)
    (h : k.step? t.location d.pending = none) :
    (compileControl d k t : Session σ Unit) = fail (.unmatchedControl t.text t.location) := by
  obtain ⟨name, xt, mark, _ | ⟨⟨part, location⟩, outer⟩⟩ := d
  · cases k <;> first | rfl | exact absurd rfl hk | cases h
  · cases k <;> cases part <;> first | rfl | exact absurd rfl hk | cases h

/-! ## Compiling and recognising -/

section

variable {s s₁ : Engine σ} {w : String} {d : Draft} {z : Spot} {p : Phrase} {next : List Pending}

/-- The definition of `w` goes on in `s₂`, with these structures open and `n` bytes more. -/
structure Progress (s : Engine σ) (w : String) (s₁ : Engine σ) (n : Nat) (open_ : List Pending)
    (s₂ : Engine σ) (d : Draft) (z : Spot) : Prop where
  underway : s.Underway w s₂ d z
  name : d.name = w
  pending : d.pending = open_
  here : s₂.machine.memory.here = s₁.machine.memory.here + n
  capacity : s₂.machine.memory.capacity = s₁.machine.memory.capacity

/-- A phrase whose bytes can be laid down takes the definition on. -/
theorem Underway.progress {n : Nat} {x : Session σ Unit} (hu : s.Underway w s₁ d z)
    (hv : s.machine.memory.Valid) (hn : d.name = w) (hp : p.isSemicolon = false)
    (hroom : s₁.machine.memory.here + n ≤ s₁.machine.memory.capacity) (hx : compilePhrase d p s₁ = x s₁)
    (ha : Affords s₁.machine.memory.here n (d.Goes d.pending) (d.Goes next) x) :
    ∃ s₂ d' z', compilePhrase d p s₁ = .ok () s₂ ∧ s.Progress w s₁ n next s₂ d' z' := by
  have hmode : d.Goes d.pending s₁.mode := ⟨d.opened, hu.drafting.mode, rfl⟩
  obtain ⟨_, s₂, hok, -, ⟨opened, hgoes, hpending⟩, hhere, hcap⟩ :=
    ha s₁ hu.drafting.ready hmode (Nat.le_refl _) hroom
  rw [← hx] at hok
  obtain ⟨d', z', -, hu'⟩ := hu.step hv (Phrase.ne_semicolon hp) hok
  obtain rfl := Mode.compile.inj (hu'.drafting.mode.symm.trans hgoes)
  exact ⟨s₂, _, z', hok, hu', hn, hpending, hhere, hcap⟩

/-- A phrase that the recogniser accepts is compiled, and leaves the structures open that it
    leaves open there. -/
theorem Underway.accepted (hu : s.Underway w s₁ d z) (hv : s.machine.memory.Valid)
    (hx : s.dict.size ≤ Cell.maxNat)
    (hn : d.name = w) (hp : p.isSemicolon = false) (hr : p.isReadable s.dict = true)
    (hroom : s₁.machine.memory.here + p.room s.dict ≤ s₁.machine.memory.capacity)
    (ha : p.accept d.pending = .ok next) :
    ∃ s₂ d' z', compilePhrase d p s₁ = .ok () s₂ ∧ s.Progress w s₁ (p.room s.dict) next s₂ d' z' := by
  cases p with
  | control k t =>
    cases hs : k.step? t.location d.pending with
    | none => rw [Phrase.accept, hs] at ha; cases ha
    | some open_ =>
      rw [Phrase.accept, hs] at ha
      cases ha
      have hxt : d.xt ≤ Cell.maxNat := by rw [hu.xt]; exact hx
      exact hu.progress hv hn hp hroom rfl (compileControl_affords (fun hole => hu.drafting.hole_le) hxt hs)
  | define => cases ha
  | word t =>
    cases ha
    have hsense : s₁.dict.sense? t.text = s.dict.sense? t.text := by
      rw [show s₁.dict = (s.dict.pushHidden w (.compiled s.entry)).2 by rw [hu.engine],
        Dictionary.sense?_pushHidden]
    have hfeed : compilePhrase d (.word t) s₁ = _ := bind_of_ok (get_apply s₁)
    rw [hsense] at hfeed
    rw [Phrase.room] at hroom ⊢
    cases hw : s.dict.sense? t.text with
    | none => rw [Phrase.isReadable, hw] at hr; cases hr
    | some sense =>
      rw [hw] at hfeed hroom
      cases sense with
      | word xt =>
        have hxt : xt < s.dict.size := Dictionary.lt_size_of_sense? hw
        exact hu.progress hv hn hp hroom hfeed (.emitToken (by omega))
      | literal v => exact hu.progress hv hn hp hroom hfeed (.emitWith .literal rfl v)
  | text u t body =>
    cases ha
    cases body with
    | none => cases hr
    | some text => exact hu.progress hv hn hp hroom rfl (.emitString u text)
  | comment closed =>
    cases ha
    exact ⟨s₁, d, z, rfl, hu, hn, rfl, rfl, rfl⟩

/-- One that it does not accept is refused with its fault. -/
theorem Underway.refused {f : Fault} (hp : p.isSemicolon = false) (ha : p.accept d.pending = .error f) :
    compilePhrase d p s₁ = .error (.fault f) s₁ := by
  cases p with
  | control k t =>
    cases hs : k.step? t.location d.pending with
    | some open_ => rw [Phrase.accept, hs] at ha; cases ha
    | none =>
      rw [Phrase.accept, hs] at ha
      cases ha
      have hk : k ≠ .semicolon := by
        rintro rfl
        cases hp
      rw [compilePhrase, compileControl_unmatched hk hs]
      rfl
  | define => cases ha; rfl
  | word | text | comment => cases ha

/-- The semicolon completes a definition with nothing open. -/
theorem compile_semicolon_of_room {t : Token} (hr : s₁.Ready) (hd : d.opened = [])
    (hroom : s₁.machine.memory.here + 4 ≤ s₁.machine.memory.capacity) :
    ∃ s₂, compilePhrase d (.control .semicolon t) s₁ = .ok () s₂ := by
  obtain ⟨name, xt, mark, opened⟩ := d
  cases hd
  have hexit : Affords 0 4 (fun _ => True) (fun _ => True) (emitPrimitive (σ := σ) .exit) :=
    .emitPrimitive _ rfl
  obtain ⟨_, s₂, hok, -⟩ := hexit s₁ hr trivial (Nat.zero_le _) hroom
  exact ⟨_, bind_of_ok hok⟩

/-- Inside a structure it is refused. -/
theorem compile_semicolon_of_pending {t : Token} {o : Pending} {outer : List Pending}
    (hd : d.pending = o :: outer) :
    compilePhrase d (.control .semicolon t) s₁ = .error (.fault o.unterminated) s₁ := by
  obtain ⟨name, xt, mark, _ | ⟨first, opened⟩⟩ := d
  · cases hd
  · cases hd
    rw [Open.unterminated_pending]
    rfl

theorem Draft.unclosed_pending {d : Draft} : recognise d.name d.pending [] = .error d.unclosed := by
  obtain ⟨name, xt, mark, _ | ⟨first, opened⟩⟩ := d
  · rfl
  · show Except.error first.pending.unterminated = _
    rw [Open.unterminated_pending]
    rfl

/-- The bytes that the text of a definition lays down. -/
def textRoom (d : Dictionary σ) (ps : List Phrase) : Nat :=
  (definitionText ps).foldr (fun p n => p.room d + n) 0

/-- However the text goes on, the definition is completed where the recogniser accepts it, and
    otherwise fails with the fault that the recogniser gives. -/
theorem Underway.recognised {ps : List Phrase} (hu : s.Underway w s₁ d z) (hv : s.machine.memory.Valid)
    (hx : s.dict.size ≤ Cell.maxNat) (hn : d.name = w)
    (hps : ∀ p ∈ definitionText ps, p.isReadable s.dict = true)
    (hroom : s₁.machine.memory.here + (textRoom s.dict ps + 4) ≤ s₁.machine.memory.capacity) (fuel : Nat) :
    (∃ body u rest s', recognise w d.pending ps = .ok rest ∧ ps = body ++ .control .semicolon u :: rest ∧
      (∀ p ∈ body, p.isSemicolon = false) ∧ feedAll fuel (body ++ [.control .semicolon u]) s₁ = .ok () s') ∨
    (∃ f s', recognise w d.pending ps = .error f ∧
      (feedAll fuel ps >>= fun _ => finish) s₁ = .error (.fault f) s' ∧
      s'.mode ≠ .run) := by
  induction ps generalizing s₁ d z with
  | nil =>
    have hmode := hu.drafting.mode
    exact .inr ⟨d.unclosed, s₁,
        by rw [← hn, Draft.unclosed_pending], finish_of_compile hmode, by rw [hmode]; simp⟩
  | cons p ps ih =>
    have hmode := hu.drafting.mode
    have hfeed : Engine.feed fuel p s₁ = compilePhrase d p s₁ := feed_of_compile hmode
    by_cases hp : p.isSemicolon = true
    · obtain ⟨t, rfl⟩ := Phrase.isSemicolon_iff.mp hp
      cases hpending : d.pending with
      | nil =>
        obtain ⟨s₂, hok⟩ :=
          compile_semicolon_of_room (t := t) hu.drafting.ready (List.map_eq_nil_iff.mp hpending) (by omega)
        refine .inl ⟨[], t, ps, s₂, rfl, rfl, by simp, ?_⟩
        rw [List.nil_append, feedAll, bind_of_ok (hfeed.trans hok)]
        rfl
      | cons o outer =>
        refine .inr ⟨o.unterminated, s₁, rfl, ?_, by rw [hmode]; simp⟩
        rw [feedAll, bind_assoc]
        exact bind_of_error (hfeed.trans (compile_semicolon_of_pending hpending))
    · have hp : p.isSemicolon = false := by simpa using hp
      rw [definitionText_cons hp, List.forall_mem_cons] at hps
      rw [textRoom, definitionText_cons hp, List.foldr_cons] at hroom
      rw [recognise_cons hp]
      cases ha : p.accept d.pending with
      | error f =>
        refine .inr ⟨f, s₁, rfl, ?_, by rw [hmode]; simp⟩
        rw [feedAll, bind_assoc]
        exact bind_of_error (hfeed.trans (Underway.refused hp ha))
      | ok next =>
        obtain ⟨s₂, d', z', hok, hgo⟩ := hu.accepted hv hx hn hp hps.1 (by omega) ha
        have hrest : s₂.machine.memory.here + (textRoom s.dict ps + 4) ≤ s₂.machine.memory.capacity := by
          rw [hgo.here, hgo.capacity, textRoom]
          omega
        rw [← hgo.pending]
        rcases ih hgo.underway hgo.name hps.2 hrest with ⟨body, u, rest, s', hrec, rfl, hbody,
            hrun⟩ | ⟨f, s', hrec, hrun, hne⟩
        · refine .inl ⟨p :: body, u, rest, s', hrec, rfl, List.forall_mem_cons.mpr ⟨hp, hbody⟩, ?_⟩
          rw [List.cons_append, feedAll, bind_of_ok (hfeed.trans hok)]
          exact hrun
        · refine .inr ⟨f, s', hrec, ?_, hne⟩
          rw [feedAll, bind_assoc, bind_of_ok (hfeed.trans hok)]
          exact hrun

theorem openDraft_of_room (hv : s.machine.memory.Valid) (h : s.entry ≤ s.machine.memory.capacity)
    (w : String) : ∃ s₁, openDraft w s = .ok () s₁ := by
  obtain ⟨m, hm⟩ := Memory.align_of_le hv h
  have halign : onMemory Memory.align s = .ok () (s.withMemory m) := onMemory_of_ok hm
  have hhere : getHere s = .ok s.machine.memory.here s := rfl
  have hrun : openDraft w s = _ := (bind_of_ok hhere).trans (bind_of_ok halign)
  exact ⟨_, hrun⟩

end

/-- The definition of `w` that a colon begins is completed by the first semicolon after it. -/
def Completes (s : Engine σ) (fuel : Nat) (t : Token) (w : String) (ps : List Phrase) : Prop :=
  ∃ body u rest s', ps = body ++ .control .semicolon u :: rest ∧ (∀ p ∈ body, p.isSemicolon = false) ∧
    feedAll fuel (.define .colon t (some w) :: body ++ [.control .semicolon u]) s = .ok () s' ∧ s'.mode = .run

/-- What is completed is in the grammar. -/
theorem Completes.grammatical {s : Engine σ} {fuel : Nat} {t : Token} {w : String} {ps : List Phrase}
    (hm : s.mode = .run) (hv : s.machine.memory.Valid) (h : s.Completes fuel t w ps) :
    Grammatical s.dict ps := by
  obtain ⟨body, u, rest, s', hsplit, hbody, hrun, -⟩ := h
  obtain ⟨b, hb⟩ := exists_reads_of_defined hm hv (fun p hp => Phrase.ne_semicolon (hbody p hp)) hrun
  exact ⟨body, u, rest, b, hsplit, hb⟩

/-- Where every word is known, every string is closed, tokens are cells and memory suffices, a
    definition is completed exactly when its text is in the grammar; and otherwise it fails with
    the fault of the first phrase that a pushdown recogniser cannot place. -/
theorem definition_recognised {s : Engine σ} (hm : s.mode = .run) (hv : s.machine.memory.Valid)
    (hx : s.dict.size ≤ Cell.maxNat) (fuel : Nat) (t : Token) (w : String) {ps : List Phrase}
    (hps : ∀ p ∈ definitionText ps, p.isReadable s.dict = true)
    (hroom : s.entry + (textRoom s.dict ps + 4) ≤ s.machine.memory.capacity) :
    (s.Completes fuel t w ps ↔ Grammatical s.dict ps) ∧
    (¬ Grammatical s.dict ps → ∃ f s', recognise w [] ps = .error f ∧
      (feedAll fuel (.define .colon t (some w) :: ps) >>= fun _ => finish) s = .error (.fault f) s' ∧
      s'.mode ≠ .run) := by
  obtain ⟨s₁, hopen⟩ := openDraft_of_room hv (by omega) w
  have hfeed : feed fuel (.define .colon t (some w)) s = .ok () s₁ := (feed_of_run hm).trans hopen
  have hu := openDraft_ok hv hopen
  have hroom₁ : s₁.machine.memory.here + (textRoom s.dict ps + 4) ≤ s₁.machine.memory.capacity := by
    rw [hu.drafting.here, hu.memory.capacity]
    exact hroom
  rcases hu.recognised hv hx rfl hps hroom₁ fuel with
    ⟨body, u, rest, s', -, hsplit, hbody, hrun⟩ | ⟨f, s', hrec, hrun, hne⟩
  · have hok : feedAll fuel (.define .colon t (some w) :: body ++ [.control .semicolon u]) s = .ok () s' := by
      rw [List.cons_append, feedAll, bind_of_ok hfeed]
      exact hrun
    obtain ⟨b, hb⟩ := exists_reads_of_defined hm hv (fun p hp => Phrase.ne_semicolon (hbody p hp)) hok
    have hmode : s'.mode = .run := by
      rw [(defined_of_reads hv hm hb hok).engine]
      exact hm
    have hg : Grammatical s.dict ps := ⟨body, u, rest, b, hsplit, hb⟩
    exact ⟨iff_of_true ⟨body, u, rest, s', hsplit, hbody, hok, hmode⟩ hg, fun h => absurd hg h⟩
  · have hg : ¬ Grammatical s.dict ps := not_grammatical_of_error hps hrec
    refine ⟨iff_of_false (fun hc => hg (hc.grammatical hm hv)) hg, fun _ => ⟨f, s', hrec, ?_, hne⟩⟩
    rw [feedAll, bind_assoc, bind_of_ok hfeed]
    exact hrun

/-- A loop that is closed inside a choice. -/
def tangledText : List Phrase :=
  (Source.ofText "tangled" "begin dup while .\" né\" 1 if 2 repeat then ;").phrases

theorem definition_recognised_tangled :
    (fresh.mode = .run ∧ fresh.machine.memory.Valid ∧ fresh.dict.size ≤ Cell.maxNat ∧
      (∀ p ∈ definitionText tangledText, p.isReadable fresh.dict = true) ∧
      fresh.entry + (textRoom fresh.dict tangledText + 4) ≤ fresh.machine.memory.capacity) ∧
    ¬ fresh.Completes 0 ⟨":", ⟨"tangled", 1, 1⟩⟩ "tangled" tangledText ∧
    ∃ s', (feedAll 0 (.define .colon ⟨":", ⟨"tangled", 1, 1⟩⟩ (some "tangled") :: tangledText) >>=
        fun _ => finish) fresh =
      .error (.fault (.unmatchedControl "repeat" ⟨"tangled", 1, 31⟩)) s' ∧ s'.mode ≠ .run := by
  have hfacts : fresh.dict.size ≤ Cell.maxNat ∧
      (definitionText tangledText).all (Phrase.isReadable fresh.dict) = true ∧
      fresh.entry + (textRoom fresh.dict tangledText + 4) ≤ fresh.machine.memory.capacity ∧
      recognise "tangled" [] tangledText = .error (.unmatchedControl "repeat" ⟨"tangled", 1, 31⟩) := by
    decide +kernel
  obtain ⟨hx, hall, hroom, hrec⟩ := hfacts
  have hps := List.all_eq_true.mp hall
  have hvalid : fresh.machine.memory.Valid := Memory.valid_empty _
  obtain ⟨hiff, hfault⟩ := definition_recognised rfl hvalid hx 0 ⟨":", ⟨"tangled", 1, 1⟩⟩ "tangled" hps hroom
  have hg := not_grammatical_of_error hps hrec
  obtain ⟨f, s', hf, hrun, hne⟩ := hfault hg
  obtain rfl := Except.error.inj (hrec.symm.trans hf)
  exact ⟨⟨rfl, hvalid, hx, hps, hroom⟩, fun hc => hg (hiff.mp hc), s', hrun, hne⟩

end Engine

end Handheld
