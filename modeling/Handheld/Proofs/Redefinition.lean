/-
  Handheld.Proofs.Redefinition — a name can be defined again, and nothing that was compiled
  before takes notice.

  A definition is compiled against what names mean before its colon: its own entry is hidden
  until the semicolon (`Completion.resolves`). Each piece of its text is an instruction of its
  code, which stands in one region of memory and names words by their tokens
  (`Completion.compiled_of_mem`). Entries keep their tokens for good, and the region holds what
  it holds until something is stored into it, so the code goes on meaning the words it was
  compiled against (`Completion.undisturbed`), while the name means its newest entry.
-/

import Handheld.Proofs.Conservation

namespace Handheld

variable {σ : Type}

/-! ## Names -/

/-- The words that are handled before the dictionary. -/
def Reserved.names : List String := table.map (·.1)

theorem Reserved.ofText?_eq_none_iff {word : String} : ofText? word = none ↔ word ∉ names := by
  rw [ofText?, List.lookup_eq_none_iff, names]
  simp only [bne_iff_ne, ne_eq, List.mem_map, not_exists, not_and]
  exact ⟨fun h w hw e => h w hw e.symm, fun h w hw e => h w hw e.symm⟩

theorem Phrase.ofText?_of_read {t v : Token} {s : Source} (h : (Phrase.read t s).1 = .word v) :
    Reserved.ofText? v.text = none := by
  unfold Phrase.read at h
  split at h <;> cases h
  assumption

/-- What a text has as an ordinary word is not reserved. -/
theorem Source.ofText?_of_mem_phrases {s : Source} {v : Token} (h : .word v ∈ s.phrases) :
    Reserved.ofText? v.text = none := by
  induction hn : s.rest.length using Nat.strongRecOn generalizing s with
  | ind n ih =>
    subst hn
    rw [phrases] at h
    split at h
    · cases h
    · next t rest hnext =>
      rcases List.mem_cons.mp h with h | h
      · exact Phrase.ofText?_of_read h.symm
      · exact ih _ (Nat.lt_of_le_of_lt (Phrase.length_read t rest) (length_next_lt hnext)) h rfl

namespace Dictionary

/-- A new entry takes its name over, unless the name is reserved. -/
theorem lookup_push_iff (d : Dictionary σ) (name : String) (kind : Kind σ) :
    (d.push name kind).2.lookup name = some (.sense (.word d.size)) ↔ name ∉ Reserved.names := by
  rw [← Reserved.ofText?_eq_none_iff, lookup, sense?, find?_push]
  cases Reserved.ofText? name <;> simp

theorem lookup_pushHidden (d : Dictionary σ) (name : String) (kind : Kind σ) (word : String) :
    (d.pushHidden name kind).2.lookup word = d.lookup word := by
  rw [lookup, lookup, sense?_pushHidden]

theorem lookup_of_sense? {d : Dictionary σ} {word : String} {r : Sense} (hw : Reserved.ofText? word = none)
    (h : d.sense? word = some r) : d.lookup word = some (.sense r) := by
  rw [lookup, hw, h]
  rfl

end Dictionary

/-- A defining word other than the colon adds one constant. -/
theorem Engine.interpretDefiner_ok {d : Definer} (hd : d ≠ .colon) {t : Token} {name : String}
    {s s' : Engine σ} (h : interpretDefiner t (some name) d s = .ok () s') : ∃ v,
    s'.dict = (s.dict.push name (.constant v)).2 := by
  cases d with
  | colon => exact absurd rfl hd
  | constant =>
    obtain ⟨v, s₁, hpop, h⟩ := bind_ok_iff.mp h
    obtain ⟨m, -, rfl⟩ := onMachine_ok hpop
    cases h
    exact ⟨v, rfl⟩
  | variable_ =>
    obtain ⟨_, _, hname, h⟩ := bind_ok_iff.mp h
    cases hname
    obtain ⟨a, s₁, hbump, h⟩ := bind_ok_iff.mp h
    obtain ⟨m, -, rfl⟩ := onMemory_ok hbump
    obtain ⟨v, s₂, hcell, h⟩ := bind_ok_iff.mp h
    obtain ⟨m₂, -, rfl⟩ := onMachine_ok hcell
    cases h
    exact ⟨v, rfl⟩
  | create =>
    obtain ⟨_, _, hname, h⟩ := bind_ok_iff.mp h
    cases hname
    obtain ⟨_, s₁, halign, h⟩ := bind_ok_iff.mp h
    obtain ⟨m, -, rfl⟩ := onMemory_ok halign
    obtain ⟨v, s₂, hend, h⟩ := bind_ok_iff.mp h
    obtain ⟨-, rfl⟩ := codeEnd_ok hend
    cases h
    exact ⟨v, rfl⟩

/-! ## Where the pieces of a definition stand -/

namespace Outer

/-- The instructions of the parts that are complete. -/
def sites (xt entry : Nat) : Outer → List Site
  | .top => []
  | .if_ o before | .begin_ o before | .do_ o before =>
    o.sites xt entry ++ before.sites xt (o.start entry) o.loops
  | .else_ o before yes =>
    o.sites xt entry ++ before.sites xt (o.start entry) o.loops ++
        yes.sites xt (o.start entry + before.size + 8) o.loops
  | .while_ o before test =>
    o.sites xt entry ++ before.sites xt (o.start entry) o.loops ++
        test.sites xt (o.start entry + before.size) o.loops

end Outer

namespace Spot

variable {xt entry : Nat} {z z' : Spot}

/-- The instructions of a definition so far, but for those that belong to an open structure. -/
def sites (xt entry : Nat) (z : Spot) : List Site :=
  z.outer.sites xt entry ++ z.body.sites xt (z.outer.start entry) z.outer.loops

/-- The instruction of a piece stands where the code ended before it. -/
theorem mem_sites_snoc (z : Spot) (entry : Nat) {b : Body} {i : Instr} (h : b.instr? xt = some i) :
    ⟨z.here entry, z.outer.loops, i⟩ ∈ (z.snoc b).sites xt entry := by
  cases b <;> cases h <;> simp [sites, snoc, Body.sites, here]

/-- A phrase adds instructions and moves none. -/
theorem mem_sites_read {d : Dictionary σ} {p : Phrase} (hr : z.read d p = some z') {s : Site}
    (hs : s ∈ z.sites xt entry) : s ∈ z'.sites xt entry := by
  have hsnoc (b : Body) : s ∈ (z.snoc b).sites xt entry := by
    simp only [sites, snoc, Body.sites, List.mem_append] at hs ⊢
    tauto
  cases p with
  | word t =>
    rw [read_word] at hr
    obtain ⟨r, -, rfl⟩ := Option.map_eq_some_iff.mp hr
    exact hsnoc _
  | define => cases hr
  | comment closed => cases hr; exact hs
  | text u t body =>
    cases body with
    | none => cases hr
    | some text => cases hr; exact hsnoc _
  | control k t =>
    obtain ⟨o, b⟩ := z
    cases k
    case recurse => cases hr; exact hsnoc _
    case exit => cases hr; exact hsnoc _
    all_goals
      clear hsnoc
      cases o <;> cases hr <;>
        simp only [sites, Outer.sites, Outer.start, Outer.loops, Body.sites, List.mem_append,
          List.mem_cons] at hs ⊢ <;>
        tauto

theorem mem_sites_readAll {d : Dictionary σ} {ps : List Phrase} (hr : z.readAll d ps = some z') {s : Site}
    (hs : s ∈ z.sites xt entry) : s ∈ z'.sites xt entry := by
  induction ps generalizing z with
  | nil => cases hr; exact hs
  | cons p ps ih =>
    obtain ⟨z₁, hz, hrest⟩ := Option.bind_eq_some_iff.mp hr
    exact ih hrest (mem_sites_read hz hs)

end Spot

/-! ## What an instruction names -/

/-- The instruction that an ordinary word is compiled to. -/
def Sense.instr : Sense → Instr
  | .word xt => .word xt
  | .literal v => .literal v

/-- The token of the word that the instruction runs. -/
def Instr.token : Instr → Nat
  | .word xt => xt
  | .plain p | .branch p _ => p.token
  | .literal _ => Primitive.literal.token
  | .string u _ => (Engine.stringPrimitive u).token

theorem Instr.bytes_eq (i : Instr) : ∃ rest, i.bytes = cellBytes i.token ++ rest := by
  cases i with
  | word | plain => exact ⟨[], (List.append_nil _).symm⟩
  | literal | branch | string => exact ⟨_, rfl⟩

/-- The token is a cell and stands for a word of the dictionary. -/
def Instr.Named (d : Dictionary σ) (i : Instr) : Prop := i.token ≤ Cell.maxNat ∧ ∃ e, d.get? i.token = some e

/-- The words of a definition are in the dictionary. -/
def Body.Present (d : Dictionary σ) : Nat → Body → Prop
  | _, .word xt => ∃ e, d.get? xt = some e
  | _, _ => True

theorem Spot.present_readAll {d : Dictionary σ} {z z' : Spot} {ps : List Phrase}
    (hz : z.Each (Body.Present d)) (hr : z.readAll d ps = some z') : z'.Each (Body.Present d) := by
  induction ps generalizing z with
  | nil => cases hr; exact hz
  | cons p ps ih =>
    obtain ⟨z₁, hz₁, hrest⟩ := Option.bind_eq_some_iff.mp hr
    refine ih (Spot.each_read hz hz₁ fun b hb => ?_) hrest
    cases p with
    | word t =>
      obtain ⟨r, hsense, rfl⟩ := Option.map_eq_some_iff.mp hb
      cases r with
      | literal v => trivial
      | word xt =>
        obtain ⟨e, he, -⟩ := Dictionary.find?_visible (Dictionary.find?_of_sense? hsense)
        exact ⟨e, he⟩
    | control k t => cases k <;> cases hb <;> trivial
    | define | comment => cases hb
    | text u t body =>
      cases body with
      | none => cases hb
      | some text => cases hb; trivial

/-- Every instruction of a completed definition names a word. -/
theorem Code.named_of_mem {d : Dictionary σ} {c : Code} (hd : d.Rooted) (htoken : ∃ e, d.get? c.xt = some e)
    (hfits : c.body.Each (Body.Fits c.xt) 0) (hpresent : c.body.Each (Body.Present d) 0) {s : Site}
    (hs : s ∈ c.sites) :
    s.instr.Named d := by
  have hcontrol {p : Primitive} (hp : p.isControl = true) : p.token ≤ Cell.maxNat ∧ ∃ e,
      d.get? p.token = some e :=
    (hd.get?_token hp).imp_right fun ⟨e, he, _⟩ => ⟨e, he⟩
  have hexit : (Instr.plain .exit).Named d := hcontrol rfl
  have hbody : ∀ s ∈ c.body.sites c.xt c.entry 0, s.instr.Named d := by
    refine Body.forall_sites (Nat.le_refl _) ((hfits.and hpresent).imp fun _ piece h i hi => ?_)
        (hcontrol rfl)
      fun p _ hp _ => hcontrol (Primitive.isControl_of_isBranch hp)
    obtain ⟨hf, hp⟩ := h
    cases piece <;> cases hi
    case word w => exact ⟨hf, hp⟩
    case literal v => exact hcontrol rfl
    case string u text => exact hcontrol (by cases u <;> rfl)
    case recurse => exact ⟨hf, htoken⟩
    case exit => exact hexit
  rcases List.mem_append.mp hs with hs | hs
  · exact hbody s hs
  · cases List.mem_singleton.mp hs
    exact hexit

/-! ## Completed definitions in a session -/

/-- A definition that a session completes: what the host had asked before, the text that is
    being read, with the phrases before the definition and behind it, and the engine as the
    definition begins and as it is complete. -/
structure Completion (limits : Limits) (host : σ) where
  full : Bool
  requests : List (Request σ)
  fuel : Nat
  label : String
  text : String
  before : List Phrase
  colon : Token
  name : String
  body : List Phrase
  semicolon : Token
  rest : List Phrase
  start : Engine σ
  final : Engine σ
  phrases : (Source.ofText label text).phrases =
    before ++ ((.define .colon colon (some name) :: body ++ [.control .semicolon semicolon]) ++ rest)
  /-- The definition ends with the first semicolon. -/
  whole : ∀ p ∈ body, ∀ t, p ≠ .control .semicolon t
  reached :
      Engine.feedAll fuel before
        ((Engine.new limits host (if full then Primitive.words else [])).after requests) =
    .ok () start
  outside : start.mode = .run
  completed :
      Engine.feedAll fuel
        (.define .colon colon (some name) :: body ++ [.control .semicolon semicolon]) start =
    .ok () final

namespace Engine

/-- The word whose token stands at the address. -/
def wordAt? (s : Engine σ) (a : Nat) : Option (Entry σ) := (s.machine.memory.cellAt a).toNat?.bind s.dict.get?

/-- The region holds the same bytes in the one engine as in the other; a cell in it that names a
    word by its token names the same word, with the name, the kind and the visibility it had, and
    so does every token. -/
structure Undisturbed (R : Region) (s s' : Engine σ) : Prop where
  bytes : ∀ a, R.entry ≤ a → a < R.stop → s'.machine.memory.byteAt a = s.machine.memory.byteAt a
  words : ∀ a e, R.entry ≤ a → a + 4 ≤ R.stop → s.wordAt? a = some e → s'.wordAt? a = some e
  entries : s.dict.Extends s'.dict

theorem Conserves.undisturbed {R : Region} {s s' : Engine σ} (h : s.Conserves R s')
    (hR : R.stop ≤ s.machine.memory.here) (hd : s.dict.Extends s'.dict) : s.Undisturbed R s' := by
  have hbytes := h.bytes hR
  refine ⟨hbytes, fun a e ha hstop he => ?_, hd⟩
  have hcell : s'.machine.memory.cellAt a = s.machine.memory.cellAt a := by
    unfold Memory.cellAt
    rw [hbytes a ha (by omega), hbytes (a + 1) (by omega) (by omega), hbytes (a + 2) (by omega) (by omega),
      hbytes (a + 3) (by omega) (by omega)]
  obtain ⟨xt, hxt, he⟩ := Option.bind_eq_some_iff.mp he
  rw [wordAt?, hcell, hxt]
  exact hd.get? he

end Engine

namespace Completion

open Engine

variable {limits : Limits} {host : σ} (c : Completion limits host)

/-- The engine of the session as it was made. -/
def origin : Engine σ := new limits host (if c.full then Primitive.words else [])

/-- The engine after the whole text and some more requests. -/
def after (rs : List (Request σ)) : Engine σ :=
  c.origin.after (c.requests ++ .interpret c.fuel c.label c.text :: rs)

/-- Where the code of the definition stands. -/
def region : Region := ⟨c.start.entry, c.final.machine.memory.here⟩

/-- The token of the definition. -/
def token : Nat := c.start.dict.size

/-- The definition by its structure. -/
def code : Code := c.start.coding ((Spot.start.readAll c.start.dict c.body).elim .empty (·.body))

theorem origin_stable : c.origin.Stable limits := new_stable_words limits host c.full

theorem start_stable : c.start.Stable limits ∧ c.start.machine.ip = none := by
  obtain ⟨hs, hip⟩ := after_evolves c.origin_stable rfl c.requests
  have hread : (feedAll c.fuel c.before >>= fun _ => finish) (c.origin.after c.requests) = .ok () c.start :=
    (bind_of_ok c.reached).trans (finish_of_run c.outside)
  obtain ⟨he, hi⟩ := reading_ok_evolves hs hip hread
  exact ⟨he.stable, hi⟩

/-- After a part of its text the definition is under way, at the place that part is read to. -/
theorem underway {ps : List Phrase} {s₁ : Engine σ} (hps : ∀ p ∈ ps, ∀ t, p ≠ .control .semicolon t)
    (h : feedAll c.fuel (.define .colon c.colon (some c.name) :: ps) c.start = .ok () s₁) :
    ∃ d z, Spot.start.readAll c.start.dict ps = some z ∧ c.start.Underway c.name s₁ d z := by
  have hv := c.start_stable.1.machine.valid
  obtain ⟨_, s₀, hopen, hbody⟩ := bind_ok_iff.mp h
  rw [feed_of_run c.outside] at hopen
  exact (openDraft_ok hv hopen).reads hv hps hbody

theorem defined : Spot.start.readAll c.start.dict c.body = some ⟨.top, c.code.body⟩ ∧
    c.start.Defined c.name c.code.body c.final := by
  have hcompleted := c.completed
  rw [feedAll_append] at hcompleted
  obtain ⟨_, s₁, hbody, hclose⟩ := bind_ok_iff.mp hcompleted
  obtain ⟨d, z, hread, hu⟩ := c.underway c.whole hbody
  obtain ⟨_, s₂, hsemicolon, hnil⟩ := bind_ok_iff.mp hclose
  rw [feed_of_compile hu.drafting.mode] at hsemicolon
  cases hnil
  obtain ⟨htop, hdefined⟩ := hu.close c.outside hsemicolon
  have hcode : c.code.body = z.body := by
    rw [code, hread]
    rfl
  rw [hcode, ← htop]
  exact ⟨hread, hdefined⟩

theorem final_evolves : c.start.Evolves limits c.final ∧ c.final.machine.ip = none := by
  refine ⟨c.defined.2.evolves c.start_stable.1, ?_⟩
  rw [c.defined.2.engine]
  exact c.start_stable.2

theorem stop_eq : c.code.stop = c.region.stop := c.defined.2.stop

/-! ## What a definition was compiled against -/

/-- The instruction stands at the address, as one of the definition, and runs a word that is in
    the dictionary. -/
structure Compiled (a : Nat) (i : Instr) : Prop where
  holds : c.final.machine.memory.Holds a i.bytes
  inside : c.region.entry ≤ a ∧ a + i.size ≤ c.region.stop
  token : (c.final.machine.memory.cellAt a).toNat? = some i.token
  word : ∃ e, c.final.wordAt? a = some e

variable {c} in
theorem compiled_of_mem {s : Site} (hs : s ∈ c.code.sites) : c.Compiled s.addr s.instr := by
  obtain ⟨hread, hdefined⟩ := c.defined
  have hpresent : c.code.body.Each (Body.Present c.final.dict) 0 :=
    (Spot.present_readAll (z := .start) ⟨trivial, trivial⟩ hread).2.imp fun _ piece h => by
      cases piece with
      | word xt => exact h.imp fun _ he => hdefined.extends.get? he
      | _ => trivial
  have hnamed :=
    Code.named_of_mem c.final_evolves.1.stable.dict.runtime ⟨_, hdefined.token⟩ hdefined.fits hpresent hs
  have hholds := (hdefined.carries.part (c.code.stands hs)).1
  obtain ⟨rest, hbytes⟩ := s.instr.bytes_eq
  have htoken : (c.final.machine.memory.cellAt s.addr).toNat? = some s.instr.token := by
    rw [hbytes] at hholds
    exact hholds.token hnamed.1
  have hend := (c.code.stands hs).end_le
  rw [Instr.length_bytes, ← c.code.stop_eq, c.stop_eq] at hend
  refine ⟨hholds, ⟨(c.code.stands hs).le, hend⟩, htoken, ?_⟩
  rw [wordAt?, htoken]
  exact hnamed.2

/-- The phrase has been compiled at the address: a word as what its name meant before the colon,
    and `recurse` as a call of the definition itself. -/
def Resolves (p : Phrase) (a : Nat) : Prop :=
  match p with
  | .word v => ∃ r, c.start.dict.lookup v.text = some (.sense r) ∧ c.Compiled a r.instr
  | .control .recurse _ => c.Compiled a (.word c.token)
  | _ => True

/-- Before each phrase of its text the definition is under way, and from there it is read to its
    end. -/
theorem underway_at {ps qs : List Phrase} {p : Phrase} (h : c.body = ps ++ p :: qs) :
    ∃ s₁ d z z₁, feedAll c.fuel (.define .colon c.colon (some c.name) :: ps) c.start = .ok () s₁ ∧
      c.start.Underway c.name s₁ d z ∧ z.read c.start.dict p = some z₁ ∧
      z₁.readAll c.start.dict qs = some ⟨.top, c.code.body⟩ := by
  have hsplit : .define .colon c.colon (some c.name) :: c.body ++ [.control .semicolon c.semicolon] =
      (.define .colon c.colon (some c.name) :: ps) ++ (p :: qs ++ [.control .semicolon c.semicolon]) := by
    rw [h]
    simp
  have hcompleted := c.completed
  rw [hsplit, feedAll_append] at hcompleted
  obtain ⟨_, s₁, hrun, -⟩ := bind_ok_iff.mp hcompleted
  obtain ⟨d, z, hread, hu⟩ :=
    c.underway (fun q hq => c.whole q (by rw [h]; exact List.mem_append_left _ hq)) hrun
  have hwhole := c.defined.1
  rw [h, Spot.readAll_append, hread, Option.bind_some, Spot.readAll] at hwhole
  obtain ⟨z₁, hz, hrest⟩ := Option.bind_eq_some_iff.mp hwhole
  exact ⟨s₁, d, z, z₁, hrun, hu, hz, hrest⟩

/-- A phrase that is a piece has its instruction where the code ended before it. -/
theorem compiled_of_piece {s₁ : Engine σ} {d : Draft} {z z₁ : Spot} {p : Phrase} {qs : List Phrase}
    {b : Body} {i : Instr} (hu : c.start.Underway c.name s₁ d z) (hz : z.read c.start.dict p = some z₁)
    (hrest : z₁.readAll c.start.dict qs = some ⟨.top, c.code.body⟩) (hb : p.piece? c.start.dict = some b)
    (hi : b.instr? c.token = some i) : c.Compiled s₁.machine.memory.here i := by
  rw [Spot.read_of_piece? hb] at hz
  cases hz
  have hmem := Spot.mem_sites_readAll hrest (z.mem_sites_snoc c.start.entry hi)
  rw [hu.drafting.here]
  exact compiled_of_mem (List.mem_append_left _ hmem)

/-- While the definition is compiled every name means what it meant before the colon, and that is
    what is compiled. -/
theorem resolves {ps qs : List Phrase} {p : Phrase} (h : c.body = ps ++ p :: qs) :
    ∃ s₁, feedAll c.fuel (.define .colon c.colon (some c.name) :: ps) c.start = .ok () s₁ ∧
      (∀ word, s₁.dict.lookup word = c.start.dict.lookup word) ∧ c.Resolves p s₁.machine.memory.here := by
  obtain ⟨s₁, d, z, z₁, hrun, hu, hz, hrest⟩ := c.underway_at h
  refine ⟨s₁, hrun, fun word => ?_, ?_⟩
  · rw [hu.engine]
    exact Dictionary.lookup_pushHidden ..
  cases p with
  | word v =>
    have hword : .word v ∈ (Source.ofText c.label c.text).phrases := by
      rw [c.phrases, h]
      simp
    have hsense := hz
    rw [Spot.read_word] at hsense
    obtain ⟨r, hr, -⟩ := Option.map_eq_some_iff.mp hsense
    have hpiece : Phrase.piece? c.start.dict (.word v) = some r.piece := by
      rw [Phrase.piece?, hr]
      rfl
    refine ⟨r, Dictionary.lookup_of_sense? (Source.ofText?_of_mem_phrases hword) hr,
      c.compiled_of_piece hu hz hrest hpiece ?_⟩
    cases r <;> rfl
  | control k t =>
    cases k
    case recurse => exact c.compiled_of_piece hu hz hrest rfl rfl
    all_goals trivial
  | define | text | comment => trivial

/-! ## What comes after a definition -/

/-- The session goes on with the rest of the text. -/
theorem after_eq (rs : List (Request σ)) :
    c.after rs = (stateAfter (recovering (feedAll c.fuel c.rest >>= fun _ => finish)) c.final).after rs := by
  have hread :
      (feedAll c.fuel (Source.ofText c.label c.text).phrases >>= fun _ => finish)
        (c.origin.after c.requests) =
      (feedAll c.fuel c.rest >>= fun _ => finish) c.final := by
    rw [c.phrases, feedAll_append, feedAll_append, bind_assoc]
    refine (bind_of_ok c.reached).trans ?_
    rw [bind_assoc, bind_of_ok c.completed]
  have htext : stateAfter (Request.interpret c.fuel c.label c.text).act (c.origin.after c.requests) =
      stateAfter (recovering (feedAll c.fuel c.rest >>= fun _ => finish)) c.final := by
    show stateAfter (recovering _) _ = _
    unfold stateAfter
    rw [recovering_eq, recovering_eq, hread]
  rw [after, Engine.after_append, ← htext]
  rfl

theorem after_append (rs rs' : List (Request σ)) : c.after (rs ++ rs') = (c.after rs).after rs' := by
  rw [c.after_eq, c.after_eq, Engine.after_append]

/-- The rest of the text, read to its end or not, leaves the engine whole. -/
theorem text_evolves : c.final.Evolves limits (c.after []) ∧ (c.after []).machine.ip = none := by
  obtain ⟨⟨hs, -, -⟩, hip⟩ := c.final_evolves
  have hread := reading_evolves hs hip c.fuel c.rest
  rw [c.after_eq]
  refine (recovering_evolves (fun s' h => ?_) fun e s' h => ?_).1
  · rw [h] at hread; exact hread
  · rw [h] at hread; exact hread

theorem after_evolves (rs : List (Request σ)) :
    c.final.Evolves limits (c.after rs) ∧ (c.after rs).machine.ip = none := by
  obtain ⟨he, hi⟩ := c.text_evolves
  rw [← List.nil_append rs, c.after_append]
  exact (evolves_after he.stable hi rs).imp_left he.trans

/-- The rest of the text and more requests, none of which stores into the code. -/
theorem undisturbed {rs : List (Request σ)} (hrest : textSpares [c.region] c.fuel c.rest c.final = true)
    (hrs : spares [c.region] rs (c.after []) = true) : c.final.Undisturbed c.region (c.after rs) := by
  obtain ⟨⟨hs, -, -⟩, hip⟩ := c.final_evolves
  obtain ⟨he, hi⟩ := c.text_evolves
  have hread := reading_conserves hs hip hrest
  have htext : c.final.Conserves c.region (c.after []) := by
    rw [c.after_eq]
    refine recovering_conserves (fun s' h => ?_) fun e s' h => ?_
    · rw [h] at hread; exact hread
    · rw [h] at hread; exact hread
  have hlater : (c.after []).Conserves c.region (c.after rs) := by
    rw [← List.nil_append rs, c.after_append]
    exact after_conserves he.stable hi hrs
  have hkept : c.final.Conserves c.region (c.after rs) := (Memory.Conserves.ordered _).trans htext hlater
  exact Conserves.undisturbed hkept (Nat.le_refl _) (c.after_evolves rs).1.dict

/-- Any later requests that do not store into the code, whatever came between. -/
theorem undisturbed_after {rs rs' : List (Request σ)} (h : spares [c.region] rs' (c.after rs) = true) :
    (c.after rs).Undisturbed c.region (c.after (rs ++ rs')) := by
  obtain ⟨he, hi⟩ := c.after_evolves rs
  rw [c.after_append]
  exact (after_conserves he.stable hi h).undisturbed he.here_le (evolves_after he.stable hi rs').1.dict

end Completion

/-! ## Definitions of every kind -/

/-- A name is given a meaning, by a text or by the host. -/
inductive Introduces (limits : Limits) (host : σ) : String → Engine σ → Engine σ → Prop
  | colon (c : Completion limits host) : Introduces limits host c.name c.start c.final
  | definer {fuel : Nat} {d : Definer} {t : Token} {name : String} {s s' : Engine σ} :
      d ≠ .colon → s.mode = .run →
      Engine.feed fuel (.define d t (some name)) s = .ok () s' → Introduces limits host name s s'
  | register {name : String} {kind : Kind σ} {s s' : Engine σ} : Engine.register name kind s = .ok () s' →
      Introduces limits host name s s'
  | define {name : String} {kind : Kind σ} {s s' : Engine σ} : Engine.define name kind s = .ok () s' →
      Introduces limits host name s s'

theorem Introduces.push {limits : Limits} {host : σ} {name : String} {s s' : Engine σ}
    (h : Introduces limits host name s s') : ∃ kind, s'.dict = (s.dict.push name kind).2 := by
  cases h with
  | colon c => exact ⟨_, c.defined.2.dict⟩
  | definer hd hm h =>
    rw [Engine.feed_of_run hm] at h
    obtain ⟨v, hv⟩ := Engine.interpretDefiner_ok hd h
    exact ⟨_, hv⟩
  | @register _ kind _ _ h =>
    rw [Engine.register] at h
    split at h
    · cases h
      exact ⟨kind, rfl⟩
    · cases h
  | @define _ kind _ _ h =>
    cases h
    exact ⟨kind, rfl⟩

/-- A definition means for good what it meant when it was made. Its text was compiled against
    the names as they were before its colon, `recurse` as itself; its instructions fill one
    region, and whatever a session goes on to do, granted or failed, as long as it stores nowhere
    into that region, its bytes and all words it names stay the same. And every new entry takes
    its name over, if the name is not reserved. -/
theorem redefinition_spares_callers (limits : Limits) (host : σ) :
    (∀ c : Completion limits host,
      (∀ ps p qs, c.body = ps ++ p :: qs →
        ∃ s₁, Engine.feedAll c.fuel (.define .colon c.colon (some c.name) :: ps) c.start = .ok () s₁ ∧
          (∀ word, s₁.dict.lookup word = c.start.dict.lookup word) ∧ c.Resolves p s₁.machine.memory.here) ∧
      (Row c.region.entry c.code.sites c.region.stop ∧ ∀ site ∈ c.code.sites,
        c.Compiled site.addr site.instr) ∧
      (∀ rs, Engine.textSpares [c.region] c.fuel c.rest c.final = true →
        Engine.spares [c.region] rs (c.after []) = true →
        c.final.Undisturbed c.region (c.after rs)) ∧
      (∀ rs rs', Engine.spares [c.region] rs' (c.after rs) = true →
        (c.after rs).Undisturbed c.region (c.after (rs ++ rs')))) ∧
    (∀ name s s', Introduces limits host name s s' →
      (∃ kind, s'.dict = (s.dict.push name kind).2) ∧
      (s'.dict.lookup name = some (.sense (.word s.dict.size)) ↔ name ∉ Reserved.names)) ∧
    Reserved.names.length = 22 ∧ Reserved.names.Nodup := by
  refine ⟨fun c => ⟨fun ps p qs h => c.resolves h, ⟨?_, fun site h => Completion.compiled_of_mem h⟩,
    fun rs hrest hrs => c.undisturbed hrest hrs, fun rs rs' h => c.undisturbed_after h⟩,
    fun name s s' h => ?_, by decide⟩
  · rw [← c.stop_eq]
    exact c.code.whole.row_sites ..
  · obtain ⟨kind, hkind⟩ := h.push
    refine ⟨⟨kind, hkind⟩, ?_⟩
    rw [hkind]
    exact s.dict.lookup_push_iff name kind

/-- A text that defines a word again, with a body that names it, and then once more. -/
def renewal : String := "variable x : a a 0 if recurse then ; : a 9 x ! ; a"

def renewalPhrases : List Phrase := (Source.ofText "t" renewal).phrases

/-- The engine that the second definition of `a` begins with. -/
def renewing : Engine Unit :=
  stateAfter (Engine.feedAll 0 (renewalPhrases.take 1)) (Engine.fresh.after [.interpret 0 "s" ": a 7 ;"])

/-- The engine that it is complete in. -/
def renewed : Engine Unit := stateAfter (Engine.feedAll 0 ((renewalPhrases.drop 1).take 7)) renewing

/-- A text that stores, runs the word and ends in a definition, between a word of the host and a
    call of the second definition. -/
def renewedRequests : List (Request Unit) :=
  [.register "a" 0 (fun _ _ => pure none), .interpret 0 "u" "3 x c! a : a", .call 0 16]

theorem renewal_phrases :
    renewalPhrases = renewalPhrases.take 1 ++ ((.define .colon ⟨":", ⟨"t", 1, 12⟩⟩ (some "a") ::
      (renewalPhrases.drop 2).take 5 ++ [.control .semicolon ⟨";", ⟨"t", 1, 36⟩⟩]) ++
        renewalPhrases.drop 8) := by
  decide +kernel

theorem renewal_steps :
    succeeds (Engine.feedAll 0 (renewalPhrases.take 1))
      (Engine.fresh.after [.interpret 0 "s" ": a 7 ;"]) = true ∧
    renewing.mode = .run ∧ succeeds (Engine.feedAll 0 ((renewalPhrases.drop 1).take 7)) renewing = true ∧
    (Spot.start.readAll renewing.dict ((renewalPhrases.drop 2).take 5)).isSome = true := by
  decide +kernel

theorem renewal_definition : (renewalPhrases.drop 1).take 7 = .define .colon ⟨":", ⟨"t", 1, 12⟩⟩ (some "a") ::
    (renewalPhrases.drop 2).take 5 ++ [.control .semicolon ⟨";", ⟨"t", 1, 36⟩⟩] := by
  decide +kernel

def renewedCompletion : Completion {} () where
  full := true
  requests := [.interpret 0 "s" ": a 7 ;"]
  fuel := 0
  label := "t"
  text := renewal
  before := renewalPhrases.take 1
  colon := ⟨":", ⟨"t", 1, 12⟩⟩
  name := "a"
  body := (renewalPhrases.drop 2).take 5
  semicolon := ⟨";", ⟨"t", 1, 36⟩⟩
  rest := renewalPhrases.drop 8
  start := renewing
  final := renewed
  phrases := renewal_phrases
  whole p hp t := by
    obtain ⟨z, hz⟩ := Option.isSome_iff_exists.mp renewal_steps.2.2.2
    exact Spot.ne_semicolon_of_readAll hz hp
  reached := ok_of_succeeds renewal_steps.1
  outside := renewal_steps.2.1
  completed := by
    rw [← renewal_definition]
    exact ok_of_succeeds renewal_steps.2.2.1

theorem renewal_spares :
    Engine.textSpares [renewedCompletion.region] 0 (renewalPhrases.drop 8) renewed = true ∧
    Engine.spares [renewedCompletion.region] renewedRequests (renewedCompletion.after []) = true := by
  decide +kernel

theorem renewal_body :
    renewedCompletion.body = [] ++ .word ⟨"a", ⟨"t", 1, 16⟩⟩ :: (renewalPhrases.drop 3).take 4 := by
  decide +kernel

theorem redefinition_spares_callers_renewed :
    (renewedCompletion.body = [] ++ .word ⟨"a", ⟨"t", 1, 16⟩⟩ :: (renewalPhrases.drop 3).take 4 ∧
      Engine.textSpares [renewedCompletion.region] 0 renewedCompletion.rest renewed = true ∧
      Engine.spares [renewedCompletion.region] renewedRequests (renewedCompletion.after []) = true) ∧
    (∃ s₁, Engine.feedAll 0 [.define .colon ⟨":", ⟨"t", 1, 12⟩⟩ (some "a")] renewing = .ok () s₁ ∧
      (∀ word, s₁.dict.lookup word = renewing.dict.lookup word) ∧
      renewedCompletion.Resolves (.word ⟨"a", ⟨"t", 1, 16⟩⟩) s₁.machine.memory.here) ∧
    renewed.Undisturbed renewedCompletion.region (renewedCompletion.after renewedRequests) ∧
    (renewed.dict.lookup "a" = some (.sense (.word renewing.dict.size)) ↔ "a" ∉ Reserved.names) := by
  obtain ⟨hrest, hrs⟩ := renewal_spares
  obtain ⟨hcode, hnames, -⟩ := redefinition_spares_callers {} ()
  obtain ⟨hbody, -, hkept, -⟩ := hcode renewedCompletion
  exact ⟨⟨renewal_body, hrest, hrs⟩, hbody _ _ _ renewal_body, hkept renewedRequests hrest hrs,
    (hnames "a" renewing renewed (.colon renewedCompletion)).2⟩

end Handheld
