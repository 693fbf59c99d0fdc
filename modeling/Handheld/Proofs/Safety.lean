/-
  Handheld.Proofs.Safety — compiled code never goes wrong.

  A session keeps the rules when the definitions it completes leave the return stack alone and
  return outside of loops only, and when nothing that it runs stores into the code of a
  completed definition (`Request.Heeds`). However such a session goes, between two requests, and
  in the middle of a text wherever no definition is open, the code of every compiled word is as
  the compiler laid it down (`Reached.settled`). So a run of it is at an instruction of a
  completed definition with each step, and leaves the return stack as it found it.
-/

import Handheld.Proofs.Frames
import Handheld.Proofs.Session

namespace Handheld

variable {σ : Type}

/-! ## Sessions that keep the rules -/

/-- The word moves cells to or from the return stack. -/
def Kind.movesReturn : Kind σ → Bool
  | .builtin p => p.movesReturn
  | _ => false

def Part.isLoop : Part → Bool
  | .do_ _ => true
  | _ => false

/-- The entry that a name stands for. -/
def Dictionary.named? (d : Dictionary σ) (name : String) : Option (Entry σ) := (d.find? name).bind d.get?

/-- There is compiled code of a word at that address. -/
def Dictionary.Calls (d : Dictionary σ) (entry : Nat) : Prop :=
  ∃ xt e, d.get? xt = some e ∧ e.kind = .compiled entry

namespace Engine

/-- The machine as a run of the code at `entry` begins. -/
def launched (s : Engine σ) (entry : Nat) : Machine σ := s.machine.placed (some entry) s.machine.ret.depth

/-- The run of the code at `entry` stores nowhere into code. -/
def runSpares (s : Engine σ) (codes : List Region) (fuel entry : Nat) : Bool :=
  s.dict.spares codes (s.budget.getD fuel) (s.launched entry)

/-- The word stores nowhere into code, when it is run now. -/
def wordSpares (s : Engine σ) (codes : List Region) (fuel : Nat) : Kind σ → Bool
  | .compiled entry => s.runSpares codes fuel entry
  | k =>
    match k.perform s.machine with
    | .ok _ _ => clear codes (k.stores s.machine)
    | .error _ _ => true

/-- The phrase keeps the rules: outside of a definition it stores nowhere into code, inside of
    one it does not move the return stack, and returns where no loop is open. -/
def permits (s : Engine σ) (codes : List Region) (fuel : Nat) (p : Phrase) : Bool :=
  match s.mode, p with
  | .run, .word t => (s.dict.named? t.text).all fun e => s.wordSpares codes fuel e.kind
  | .compile _, .word t => (s.dict.named? t.text).all fun e => !e.kind.movesReturn
  | .compile d, .control .exit _ => d.opened.all fun o => !o.part.isLoop
  | _, _ => true

/-- The code of the definition that is complete in `s'` and was not in `s`. -/
def completed (s s' : Engine σ) : List Region :=
  match s.mode, s'.mode with
  | .compile d, .run => [⟨Memory.aligned d.mark, s'.machine.memory.here⟩]
  | _, _ => []

/-- Each phrase keeps the rules, as far as the reading comes. -/
def heeds (fuel : Nat) : List Phrase → Engine σ → List Region → Bool
  | [], _, _ => true
  | p :: ps, s, codes =>
    s.permits codes fuel p &&
      match feed fuel p s with
      | .ok _ s' => heeds fuel ps s' (codes ++ s.completed s')
      | .error _ _ => true

/-- The code of the definitions that reading the phrases completes. -/
def completions (fuel : Nat) : List Phrase → Engine σ → List Region
  | [], _ => []
  | p :: ps, s =>
    match feed fuel p s with
    | .ok _ s' => s.completed s' ++ completions fuel ps s'
    | .error _ _ => []

end Engine

namespace Request

/-- The request keeps the rules, where that is the code of the definitions so far. A call is to
    code of a word. -/
def Heeds (s : Engine σ) (codes : List Region) : Request σ → Prop
  | .register _ _ _ => True
  | .interpret fuel label text => Engine.heeds fuel (Source.ofText label text).phrases s codes = true
  | .call fuel addr => s.dict.Calls addr ∧ s.runSpares codes fuel addr = true

def completions (s : Engine σ) : Request σ → List Region
  | .interpret fuel label text => Engine.completions fuel (Source.ofText label text).phrases s
  | .register _ _ _ | .call _ _ => []

end Request

/-- The states of the sessions that keep the rules, with the code of the definitions they have
    completed: after each request, and within a text before each phrase outside of definitions. -/
inductive Reached (limits : Limits) (host : σ) : Engine σ → List Region → Prop
  | new : Reached limits host (.new limits host Primitive.words) []
  | request {s : Engine σ} {codes : List Region} (r : Request σ) :
      Reached limits host s codes → r.Heeds s codes →
      Reached limits host (stateAfter r.act s) (codes ++ r.completions s)
  | reading {s s' : Engine σ} {codes : List Region} {fuel : Nat} {label text : String} {ps qs : List Phrase} :
      Reached limits host s codes → (Source.ofText label text).phrases = ps ++ qs →
      Engine.heeds fuel ps s codes = true →
      Engine.feedAll fuel ps s = .ok () s' → s'.mode = .run →
      Reached limits host s' (codes ++ Engine.completions fuel ps s)

/-! ## The code of the words -/

theorem Body.Tame.extends {d d' : Dictionary σ} {loops : Nat} {b : Body} (h : b.Tame d loops)
    (he : d.Extends d') : b.Tame d' loops := by
  cases b with
  | word xt => exact h.imp fun _ ht => ⟨he.get? ht.1, ht.2⟩
  | _ => exact h

theorem Code.Sound.extends {d d' : Dictionary σ} {c : Code} (h : c.Sound d) (he : d.Extends d') :
    c.Sound d' :=
  { h with
    token := h.token.imp fun _ ht => ⟨he.get? ht.1, ht.2⟩
    tame := h.tame.imp fun _ _ hb => hb.extends he }

namespace Dictionary

variable {d : Dictionary σ} {defs : List Code} {m m' : Memory}

theorem Coded.push (h : d.Coded defs m) (name : String) {k : Kind σ} (hk : ∀ entry, k ≠ .compiled entry) :
    (d.push name k).2.Coded defs m where
  rooted := h.rooted.extends (d.extends_push name k)
  sound c hc := (h.sound c hc).extends (d.extends_push name k)
  carries := h.carries
  words xt e entry he hc := by
    rw [get?_push] at he
    split at he
    · cases he
      exact absurd hc (hk entry)
    · exact h.words xt e entry he hc

/-- A word whose code has been laid down. -/
theorem Coded.define (h : d.Coded defs m) (name : String) {c : Code} (hc : m.Carries c.entry c.bytes)
    (hs : c.Sound (d.push name (.compiled c.entry)).2) :
    (d.push name (.compiled c.entry)).2.Coded (defs ++ [c]) m where
  rooted := h.rooted.extends (d.extends_push name _)
  sound := by
    intro c' hc'
    rcases List.mem_append.mp hc' with hold | hnew
    · exact (h.sound c' hold).extends (d.extends_push name _)
    · cases List.mem_singleton.mp hnew
      exact hs
  carries := by
    intro c' hc'
    rcases List.mem_append.mp hc' with hold | hnew
    · exact h.carries c' hold
    · cases List.mem_singleton.mp hnew
      exact hc
  words xt e entry he hk := by
    rw [get?_push] at he
    split at he
    · cases he
      cases hk
      exact ⟨c, List.mem_append_right _ List.mem_cons_self, rfl⟩
    · obtain ⟨c', hc', rfl⟩ := h.words xt e entry he hk
      exact ⟨c', List.mem_append_left _ hc', rfl⟩

end Dictionary

namespace Engine

variable {limits : Limits} {s s₁ s₂ s' : Engine σ} {defs : List Code}

/-- What a definition begun now is when it is completed. -/
def coding (s : Engine σ) (b : Body) : Code := ⟨s.dict.size, s.entry, b⟩

theorem Defined.stop {w : String} {b : Body} (hd : s.Defined w b s') :
    (s.coding b).stop = s'.machine.memory.here := by
  rw [hd.laid.here, Code.stop_eq]
  rfl

theorem Defined.carries {w : String} {b : Body} (hd : s.Defined w b s') :
    s'.machine.memory.Carries (s.coding b).entry (s.coding b).bytes :=
  ⟨hd.laid.valid, Nat.le_of_eq hd.laid.here.symm, hd.laid.code⟩

/-- A completed definition adds its code to that of the others. -/
theorem Defined.coded {w : String} {b : Body} (hd : s.Defined w b s')
    (hc : s.dict.Coded defs s.machine.memory)
    (ht : b.Each (Body.Tame s.dict) 0) : s'.dict.Coded (defs ++ [s.coding b]) s'.machine.memory := by
  have hsound : (s.coding b).Sound s'.dict :=
    ⟨⟨_, hd.token, rfl⟩, Memory.dvd_aligned _, hd.fits, ht.imp fun _ _ hb => hb.extends hd.extends⟩
  rw [hd.dict] at hsound ⊢
  exact (hc.grows hd.memory).define w hd.carries hsound

theorem Intact.coded (hi : s.Intact s') (hc : s.dict.Coded defs s.machine.memory) :
    s'.dict.Coded defs s'.machine.memory := by
  have hdict : s'.dict = s.dict := by rw [hi.engine]; rfl
  rw [hdict]
  exact hc.grows ⟨hi.capacity, Nat.le_of_eq hi.here.symm, fun h =>
      by rw [hi.here, hi.capacity]; exact h, hi.below⟩

/-- Whatever the code of the words is, it is still there. -/
def KeepsCode (s s' : Engine σ) : Prop :=
  ∀ defs, s.dict.Coded defs s.machine.memory → s'.dict.Coded defs s'.machine.memory

theorem keepsCode_allows : Allows (KeepsCode (σ := σ)) (fun m m' => m.memory.Grows m'.memory) where
  refl _ _ h := h
  trans h g defs hc := g defs (h defs hc)
  parts := Machine.growing_partWise
  machine _ _ hg _ h := h.grows hg
  constant _ name _ _ h := h.push name fun _ hk => by cases hk

/-! ## Runs -/

/-- Outside of a definition: the engine is whole, nothing is running, and the code of every
    compiled word is there. -/
structure Settled (limits : Limits) (s : Engine σ) (defs : List Code) : Prop where
  stable : s.Stable limits
  ip : s.machine.ip = none
  coded : s.dict.Coded defs s.machine.memory

/-- A run of the code at `entry` can fail with `f` by what one of the words it runs does. -/
def Excused (s : Engine σ) (fuel entry : Nat) (f : Fault) : Prop :=
  ∃ k m, k < s.budget.getD fuel ∧ s.dict.runFor k (s.launched entry) = .ok () m ∧ s.dict.OwnFault m f

theorem Settled.running (hs : s.Settled limits defs) {entry : Nat} (hw : s.dict.Calls entry) :
    Running s.dict defs s.machine.ret (s.launched entry) := by
  obtain ⟨xt, e, he, hk⟩ := hw
  obtain ⟨c, hc, rfl⟩ := hs.coded.words xt e entry he hk
  exact ⟨hs.coded, rfl, 0, c.enters fun t ht => ⟨c, hc, t, ht, rfl, rfl⟩, .bottom⟩

/-- A run of compiled code leaves the return stack as it was and the code where it was. -/
theorem Settled.runCode (hs : s.Settled limits defs) {fuel entry : Nat} (hw : s.dict.Calls entry)
    (hspares : s.runSpares (defs.map Code.region) fuel entry = true) :
    match runCode fuel entry s with
    | .ok _ s' => s'.machine.ret = s.machine.ret ∧ s'.dict.Coded defs s'.machine.memory
    | .error e s' => s'.dict.Coded defs s'.machine.memory ∧
        ∀ f, e = .fault f → f.isMisread = true → s.Excused fuel entry f := by
  have hfares := run_fares (hs.running hw) hspares (Nat.le_refl _)
  have hrun : (Machine.start entry >>= fun _ => s.dict.runFor (s.budget.getD fuel)) s.machine =
      s.dict.runFor (s.budget.getD fuel) (s.launched entry) := rfl
  rw [runCode_eq, hrun]
  rcases h : s.dict.runFor (s.budget.getD fuel) (s.launched entry) with ⟨_, m⟩ | ⟨f, m⟩
  · rw [h] at hfares
    obtain ⟨hcoded, -, hplace⟩ := hfares
    cases hip : m.ip with
    | none =>
      rw [hip] at hplace
      simp only [hip, Option.isSome_none, Bool.false_eq_true, if_false]
      exact ⟨hplace, hcoded⟩
    | some a =>
      simp only [hip, Option.isSome_some, if_true]
      refine ⟨hcoded, fun f hf hm => ?_⟩
      cases hb : s.budget with
      | none => rw [hb] at hf; cases hf
      | some limit => rw [hb] at hf; cases hf; cases hm
  · rw [h] at hfares
    obtain ⟨hcoded, j, m₁, hj, hrun₁, hown⟩ := hfares
    refine ⟨hcoded, fun f' hf hm => ?_⟩
    cases hf
    exact ⟨j, m₁, hj, hrun₁, hown hm⟩

/-! ## One phrase -/

theorem wordSpares_of_ok {codes : List Region} {fuel : Nat} {k : Kind σ} {m : Machine σ}
    (ho : k.isOrdinary = true)
    (h : k.perform s.machine = .ok () m) : s.wordSpares codes fuel k = clear codes (k.stores s.machine) := by
  cases k with
  | compiled => cases ho
  | builtin | hook | native | constant =>
    rw [wordSpares, h]
    nofun

/-- A word that is run where the rules are kept leaves the code of the words where it was. -/
theorem Settled.execute (hs : s.Settled limits defs) {fuel xt : Nat} {e : Entry σ}
    (he : s.dict.get? xt = some e)
    (hv : e.hidden = false) (hspares : s.wordSpares (defs.map Code.region) fuel e.kind = true) :
    (stateAfter (execute fuel xt) s).dict.Coded defs
      (stateAfter (Engine.execute fuel xt) s).machine.memory := by
  unfold stateAfter
  rcases hs.stable.ordinary he hv with ⟨entry, hk⟩ | ho
  · rw [hk] at hspares
    have hrun := hs.runCode ⟨xt, e, he, hk⟩ hspares
    rw [execute_compiled he hk hs.ip]
    rcases h : Engine.runCode fuel entry s with ⟨_, s'⟩ | ⟨f, s'⟩
    · rw [h] at hrun
      exact hrun.2
    · rw [h] at hrun
      exact hrun.1
  · rw [execute_ordinary he ho, onMachine_eq]
    rcases h : e.kind.perform s.machine with ⟨_, m⟩ | ⟨f, m⟩
    · rw [wordSpares_of_ok ho h] at hspares
      exact hs.coded.perform ho (apart_of_clear hspares) h
    · exact hs.coded.grows (Kind.grows_of_error ho h)

theorem settled_recover (hs : s.discardDraft.Stable limits)
    (hc : s.discardDraft.dict.Coded defs s.discardDraft.machine.memory) :
    s.recover.Settled limits defs := by
  obtain ⟨he, hip, -⟩ := recover_evolves (.refl hs)
  exact ⟨he.stable, hip, hc⟩

/-- Outside of a definition nothing is taken back but what is on the stacks. -/
theorem Stable.recover (hs : s.Stable limits) (hc : s.dict.Coded defs s.machine.memory) :
    s.recover.Settled limits defs := by
  have hrun : s.discardDraft = s := discardDraft_of_run hs.mode
  exact settled_recover (by rw [hrun]; exact hs) (by rw [hrun]; exact hc)

theorem Settled.recover (hs : s.Settled limits defs) : s.recover.Settled limits defs :=
  hs.stable.recover hs.coded

/-- What is left when a definition is taken back. -/
theorem Settled.undone (hs : s.Settled limits defs) (hi : s.Intact s'.discardDraft) :
    s'.recover.Settled limits defs :=
  settled_recover (hi.evolves hs.stable).stable (hi.coded hs.coded)

/-- A phrase that acts at once and keeps the rules. -/
theorem Settled.interpretPhrase (hs : s.Settled limits defs) {fuel : Nat} {p : Phrase}
    (hp : ∀ t name, p ≠ .define .colon t name)
    (hpermit : s.permits (defs.map Code.region) fuel p = true) :
    match interpretPhrase fuel p s with
    | .ok _ s' => s'.Settled limits defs
    | .error _ s' => s'.recover.Settled limits defs := by
  obtain ⟨hevolves, hip⟩ := interpretPhrase_evolves hs.stable hs.ip fuel hp
  have hcoded : (stateAfter (Engine.interpretPhrase fuel p) s).dict.Coded defs
      (stateAfter (Engine.interpretPhrase fuel p) s).machine.memory := by
    rcases keepsCode_allows.interpretPhrase fuel hp s with ⟨t, xt, rfl, hf, hrun⟩ | hkeeps
    · obtain ⟨e, he, hv⟩ := Dictionary.find?_visible hf
      simp only [permits, hs.stable.mode, Dictionary.named?, hf, Option.bind_some, he, Option.all_some]
          at hpermit
      have hword := hs.execute he hv hpermit
      unfold stateAfter at hword ⊢
      rwa [hrun]
    · exact hkeeps defs hs.coded
  rcases h : Engine.interpretPhrase fuel p s with ⟨_, s'⟩ | ⟨e, s'⟩
  · rw [stateAfter_ok h] at hevolves hcoded
    exact ⟨hevolves.stable, hip s' h, hcoded⟩
  · rw [stateAfter_error h] at hevolves hcoded
    exact hevolves.stable.recover hcoded

end Engine

/-! ## Inside of a definition -/

theorem Outer.loops_eq_zero (entry : Nat) {o : Outer} (h : ∀ p ∈ o.parts entry, p.isLoop = false) :
    o.loops = 0 := by
  induction o with
  | top => rfl
  | do_ o before ih => cases h _ List.mem_cons_self
  | if_ o before ih | else_ o before yes ih | begin_ o before ih | while_ o before test ih =>
    exact ih fun p hp => h p (List.mem_cons_of_mem _ hp)

/-- A phrase that keeps the rules adds nothing that would break them. -/
theorem Spot.tame_read {d : Dictionary σ} {z z' : Spot} {p : Phrase} (hz : z.Each (Body.Tame d))
    (hr : z.read d p = some z')
    (hword : ∀ t xt, p = .word t → d.find? t.text = some xt → (Body.word xt).Tame d z.outer.loops)
    (hexit : ∀ t, p = .control .exit t → z.outer.loops = 0) : z'.Each (Body.Tame d) := by
  refine Spot.each_read hz hr fun b hb => ?_
  cases p with
  | word t =>
    obtain ⟨r, hr, rfl⟩ := Option.map_eq_some_iff.mp hb
    cases r with
    | literal v => trivial
    | word xt => exact hword t xt rfl (Dictionary.find?_of_sense? hr)
  | control k t =>
    cases k <;> cases hb
    · trivial
    · exact hexit t rfl
  | define | comment => cases hb
  | text u t body =>
    cases body with
    | none => cases hb
    | some text => cases hb; trivial

namespace Engine

variable {limits : Limits} {s s₀ s' : Engine σ} {defs : List Code}

/-- What holds after each phrase of a text that keeps the rules. -/
inductive Keeping (limits : Limits) (defs : List Code) : Engine σ → Prop
  | outside {s : Engine σ} : s.Settled limits defs → Keeping limits defs s
  | inside {s₀ s : Engine σ} {w : String} {d : Draft} {z : Spot} :
      s₀.Settled limits defs → s₀.Underway w s d z →
      z.Each (Body.Tame s₀.dict) → Keeping limits defs s

/-- A visible word that does not move the return stack may stand in a definition. -/
theorem Stable.isTame (hs : s.Stable limits) {xt : Nat} {e : Entry σ} (he : s.dict.get? xt = some e)
    (hv : e.hidden = false) (hm : e.kind.movesReturn = false) : e.kind.isTame = true := by
  rcases hs.ordinary he hv with ⟨entry, hk⟩ | ho
  · rw [hk]
    rfl
  · cases hk : e.kind <;> simp_all [Kind.isOrdinary, Kind.isTame, Kind.movesReturn]

/-- A phrase of a definition that is compiled where the rules are kept. -/
theorem Underway.tame {w : String} {d : Draft} {z z' : Spot} {p : Phrase} {codes : List Region} {fuel : Nat}
    (hu : s₀.Underway w s d z) (hs : s₀.Stable limits) (hz : z.Each (Body.Tame s₀.dict))
    (hr : z.read s₀.dict p = some z')
    (hp : s.permits codes fuel p = true) : z'.Each (Body.Tame s₀.dict) := by
  have hdict : s.dict = (s₀.dict.pushHidden w (.compiled s₀.entry)).2 := by rw [hu.engine]
  refine Spot.tame_read hz hr ?_ ?_
  · rintro t xt rfl hf
    obtain ⟨e, he, hv⟩ := Dictionary.find?_visible hf
    have he' := (s₀.dict.extends_pushHidden w (.compiled s₀.entry)).get? he
    simp only [permits, hu.drafting.mode, Dictionary.named?, hdict, Dictionary.find?_pushHidden, hf,
      Option.bind_some, he', Option.all_some, Bool.not_eq_true'] at hp
    exact ⟨e, he, hs.isTame he hv hp⟩
  · rintro t rfl
    simp only [permits, hu.drafting.mode] at hp
    refine Outer.loops_eq_zero s₀.entry ?_
    rw [← hu.drafting.parts]
    simpa using hp

theorem Keeping.recover (h : Keeping limits defs s) : s.recover.Settled limits defs := by
  cases h with
  | outside hs => exact hs.recover
  | inside hs hu _ => exact hs.undone (hu.discard hs.stable.mode ((Confined.ordered _ _).refl s))

/-- How a phrase leaves the engine: a definition that it completes adds its code. -/
def Advances (limits : Limits) (defs : List Code) (s : Engine σ) : EStateM.Result Halt (Engine σ) Unit → Prop
  | .ok _ s' => ∃ more, s.completed s' = more.map Code.region ∧ Keeping limits (defs ++ more) s'
  | .error _ s' => s'.recover.Settled limits defs

theorem Advances.settled (hs : s.Settled limits defs) (h : s'.Settled limits defs) :
    Advances limits defs s (.ok () s') := by
  refine ⟨[], ?_, .outside (by rwa [List.append_nil])⟩
  rw [completed, hs.stable.mode]
  rfl

theorem Advances.opened {w : String} {d : Draft} {z : Spot} (hs : s₀.Settled limits defs)
    (hu : s₀.Underway w s' d z)
    (hz : z.Each (Body.Tame s₀.dict)) : Advances limits defs s (.ok () s') := by
  refine ⟨[], ?_, .inside (by rwa [List.append_nil]) hu hz⟩
  rw [completed, hu.drafting.mode]
  cases s.mode <;> rfl

/-- Outside of a definition. -/
theorem Settled.feed (hs : s.Settled limits defs) {fuel : Nat} {p : Phrase}
    (hp : s.permits (defs.map Code.region) fuel p = true) : Advances limits defs s (feed fuel p s) := by
  rw [feed_of_run hs.stable.mode]
  by_cases hcolon : ∀ t name, p ≠ .define .colon t name
  · have hphrase := hs.interpretPhrase hcolon hp
    rcases h : Engine.interpretPhrase fuel p s with ⟨_, s'⟩ | ⟨e, s'⟩
    · rw [h] at hphrase
      exact .settled hs hphrase
    · rw [h] at hphrase
      exact hphrase
  · obtain ⟨t, name, rfl⟩ : ∃ t name, p = .define .colon t name := by simpa using hcolon
    cases name with
    | none => exact hs.recover
    | some w =>
      rw [show Engine.interpretPhrase fuel (.define .colon t (some w)) s = openDraft w s from rfl]
      rcases h : openDraft w s with ⟨_, s'⟩ | ⟨e, s'⟩
      · exact .opened hs (openDraft_ok hs.stable.machine.valid h) ⟨trivial, trivial⟩
      · rw [(openDraft_error h).2]
        exact hs.recover

/-- Inside of one. -/
theorem Underway.feed {w : String} {d : Draft} {z : Spot} (hu : s₀.Underway w s d z)
    (hs : s₀.Settled limits defs)
    (hz : z.Each (Body.Tame s₀.dict)) {fuel : Nat} {p : Phrase} {codes : List Region}
    (hp : s.permits codes fuel p = true) :
    Advances limits defs s (feed fuel p s) := by
  have hv := hs.stable.machine.valid
  rw [feed_of_compile hu.drafting.mode]
  rcases h : compilePhrase d p s with ⟨_, s'⟩ | ⟨e, s'⟩
  · by_cases hsemicolon : ∀ t, p ≠ .control .semicolon t
    · obtain ⟨d', z', hr, hu'⟩ := hu.step hv hsemicolon h
      exact .opened hs hu' (hu.tame hs.stable hz hr hp)
    · obtain ⟨t, rfl⟩ : ∃ t, p = .control .semicolon t := by simpa using hsemicolon
      obtain ⟨htop, hdef⟩ := hu.close hs.stable.mode h
      have htame := hz.2
      rw [htop] at htame
      have hevolves := hdef.evolves hs.stable
      refine ⟨[s₀.coding z.body], ?_, .outside ⟨hevolves.stable, ?_, hdef.coded hs.coded htame⟩⟩
      · rw [completed, hu.drafting.mode, hevolves.stable.mode, ← hdef.stop]
        show [Region.mk (Memory.aligned d.mark) _] = _
        rw [hu.mark]
        rfl
      · rw [hdef.engine]
        exact hs.ip
  · exact hs.undone (hu.discard hs.stable.mode (compilePhrase_error (hu.holes hv) h).2)

/-- Every phrase that keeps the rules keeps the code of the words where it is. -/
theorem Keeping.feed (h : Keeping limits defs s) {fuel : Nat} {p : Phrase}
    (hp : s.permits (defs.map Code.region) fuel p = true) : Advances limits defs s (feed fuel p s) := by
  cases h with
  | outside hs => exact hs.feed hp
  | inside hs hu hz => exact hu.feed hs hz hp

/-! ## Whole texts, and sessions -/

/-- How phrases leave the engine, where that is the code of the words after them. -/
def Leaves (limits : Limits) (defs : List Code) : EStateM.Result Halt (Engine σ) Unit → Prop
  | .ok _ s => Keeping limits defs s
  | .error _ s => s.recover.Settled limits defs

/-- Phrases that keep the rules leave the code of every word where it is, also where they fail. -/
theorem Keeping.feedAll (h : Keeping limits defs s) {fuel : Nat} {ps : List Phrase}
    (hp : heeds fuel ps s (defs.map Code.region) = true) :
    ∃ more, completions fuel ps s = more.map Code.region ∧
    Leaves limits (defs ++ more) (feedAll fuel ps s) := by
  -- Each phrase may add to the code that the phrases behind it have to spare.
  induction ps generalizing s defs with
  | nil => exact ⟨[], rfl, by rw [List.append_nil]; exact h⟩
  | cons p ps ih =>
    obtain ⟨hpermit, hrest⟩ := Bool.and_eq_true_iff.mp hp
    have hadvances := h.feed hpermit
    rw [completions, Engine.feedAll, bind_apply]
    rcases hfeed : Engine.feed fuel p s with ⟨_, s'⟩ | ⟨e, s'⟩
    · rw [hfeed] at hadvances hrest
      obtain ⟨more, hmore, hkeeping⟩ := hadvances
      have hheeds : heeds fuel ps s' ((defs ++ more).map Code.region) = true := by
        rw [List.map_append, ← hmore]
        exact hrest
      obtain ⟨later, hlater, hleaves⟩ := ih hkeeping hheeds
      refine ⟨more ++ later, ?_, ?_⟩
      · rw [List.map_append, ← hmore, ← hlater]
      · rw [← List.append_assoc]
        exact hleaves
    · rw [hfeed] at hadvances
      exact ⟨[], rfl, by rw [List.append_nil]; exact hadvances⟩

theorem Keeping.settled (h : Keeping limits defs s) (hm : s.mode = .run) : s.Settled limits defs := by
  cases h with
  | outside hs => exact hs
  | inside hs hu hz =>
    rw [hu.drafting.mode] at hm
    cases hm

/-- A text that keeps the rules leaves the code of every word where it is, also where it fails. -/
theorem Keeping.interpret (h : Keeping limits defs s) {fuel : Nat} {ps : List Phrase}
    (hp : heeds fuel ps s (defs.map Code.region) = true) :
    ∃ more, completions fuel ps s = more.map Code.region ∧
      (stateAfter (recovering (Engine.feedAll fuel ps >>= fun _ => finish)) s).Settled limits
        (defs ++ more) := by
  obtain ⟨more, hmore, hleaves⟩ := h.feedAll hp
  refine ⟨more, hmore, ?_⟩
  unfold stateAfter
  rw [recovering_eq]
  rcases hread : Engine.feedAll fuel ps s with ⟨_, s'⟩ | ⟨e, s'⟩
  · rw [hread] at hleaves
    rw [bind_of_ok hread]
    cases hleaves with
    | outside hs =>
      rw [finish_of_run hs.stable.mode]
      exact hs
    | inside hs hu hz =>
      rw [finish_of_compile hu.drafting.mode]
      exact (Keeping.inside hs hu hz).recover
  · rw [hread] at hleaves
    rw [bind_of_error hread]
    exact hleaves

theorem Settled.request (hs : s.Settled limits defs) {r : Request σ} (hr : r.Heeds s (defs.map Code.region)) :
    ∃ more, r.completions s = more.map Code.region ∧ (stateAfter r.act s).Settled limits (defs ++ more) := by
  obtain ⟨⟨hevolves, hip⟩, -⟩ := request_evolves hs.stable hs.ip r
  cases r with
  | interpret fuel label text => exact (Keeping.outside hs).interpret hr
  | register name arity f =>
    refine ⟨[], rfl, hevolves.stable, hip, ?_⟩
    rw [List.append_nil]
    show (stateAfter (register name (.native arity f)) s).dict.Coded defs
        (stateAfter (register name (.native arity f)) s).machine.memory
    unfold register
    split
    · exact hs.coded.push name fun _ hk => by cases hk
    · exact hs.coded
  | call fuel addr =>
    refine ⟨[], rfl, hevolves.stable, hip, ?_⟩
    obtain ⟨hevolves, -⟩ := runCode_evolves hs.stable fuel addr
    have hrun := hs.runCode hr.1 hr.2
    rw [List.append_nil]
    show (stateAfter (callAddress fuel addr) s).dict.Coded defs
        (stateAfter (callAddress fuel addr) s).machine.memory
    unfold stateAfter
    rw [callAddress, recovering_eq]
    rcases h : Engine.runCode fuel addr s with ⟨_, s'⟩ | ⟨e, s'⟩
    · rw [h] at hrun
      exact hrun.2
    · rw [h] at hrun
      rw [stateAfter_error h] at hevolves
      exact (hevolves.stable.recover hrun.1).coded

end Engine

/-- Wherever a session that keeps the rules has come, outside of definitions, the code of every
    word is there. -/
theorem Reached.settled {limits : Limits} {host : σ} {s : Engine σ} {codes : List Region}
    (h : Reached limits host s codes) :
    ∃ defs, codes = defs.map Code.region ∧ s.Settled limits defs := by
  induction h with
  | new =>
    have hstable : (Engine.new limits host Primitive.words).Stable limits :=
      Engine.new_stable limits host fun w hw => Primitive.isControl_of_mem_words hw
    have hwords := (hstable.orderly rfl).compiled
    refine ⟨[], rfl, hstable, rfl, hstable.dict.runtime, by simp, by simp, fun xt e entry he hk => ?_⟩
    -- There is no compiled word yet: nothing has been handed out that its code could be in.
    have hend : entry + 4 ≤ 0 := (hwords xt e entry he hk).2
    omega
  | request r _ hr ih =>
    obtain ⟨defs, rfl, hs⟩ := ih
    obtain ⟨more, hmore, hsettled⟩ := hs.request hr
    exact ⟨defs ++ more, by rw [hmore, List.map_append], hsettled⟩
  | reading _ _ hheeds hread hmode ih =>
    obtain ⟨defs, rfl, hs⟩ := ih
    obtain ⟨more, hmore, hleaves⟩ := (Engine.Keeping.outside hs).feedAll hheeds
    rw [hread] at hleaves
    exact ⟨defs ++ more, by rw [hmore, List.map_append], Engine.Keeping.settled hleaves hmode⟩

/-! ## Safety -/

/-- An instruction of the code begins at `a`, going through it one instruction after the other,
    and the whole of it is in the code and in memory. -/
def Memory.Dispatches (m : Memory) (codes : List Region) (a : Nat) : Prop :=
  ∃ c ∈ codes, m.Boundary c.entry c.stop a ∧ a + m.instrSize a ≤ c.stop ∧ c.stop ≤ m.capacity

theorem Running.dispatches {d : Dictionary σ} {defs : List Code} {base : Stack} {m : Machine σ} {a : Nat}
    (h : Running d defs base m) (ha : m.ip = some a) : m.memory.Dispatches (defs.map Code.region) a := by
  obtain ⟨hcoded, -, hplace⟩ := h
  rw [ha] at hplace
  obtain ⟨loops, ⟨c, hc, t, ht, rfl, -⟩, -⟩ := hplace
  have hcarries := hcoded.carries c hc
  obtain ⟨hbegins, hends⟩ := (hcoded.sound c hc).boundary hcoded.rooted hcarries ht
  have hstop : c.stop ≤ m.memory.capacity := by
    rw [c.stop_eq]
    exact Nat.le_trans hcarries.inside hcarries.valid.here_le
  exact ⟨c.region, List.mem_map_of_mem hc, hbegins, hends, hstop⟩

theorem Running.ownFault {d : Dictionary σ} {defs : List Code} {base : Stack} {m m' : Machine σ} {f : Fault}
    (h : Running d defs base m) (hstep : d.step m = .error f m') (hf : f.isMisread = true) :
    d.OwnFault m f := by
  have hip : m.ip.isSome = true := by
    cases hip : m.ip with
    | some a => rfl
    | none =>
      rw [Dictionary.step, bind_of_ok (get_apply m), hip] at hstep
      cases hstep
  have hfares := step_fares h hip fun _ hok => by rw [hstep] at hok; cases hok
  rw [hstep] at hfares
  exact hfares.2 hf

theorem Dictionary.entry?_eq_some {d : Dictionary σ} {name : String} {entry : Nat}
    (h : d.entry? name = some entry) :
    ∃ xt e, d.find? name = some xt ∧ d.get? xt = some e ∧ e.kind = .compiled entry := by
  unfold entry? at h
  split at h
  · next heq =>
    cases h
    obtain ⟨xt, hf, he⟩ := Option.bind_eq_some_iff.mp heq
    exact ⟨xt, _, hf, he, rfl⟩
  · cases h

namespace Engine

variable {limits : Limits} {s : Engine σ} {defs : List Code}

/-- A run of a word's code that a host or a text can ask for, by address or by name. -/
def Starts (s : Engine σ) (fuel entry : Nat) (act : Session σ Unit) : Prop :=
  act = callAddress fuel entry ∨ ∃ t, s.dict.entry? t.text = some entry ∧ act = Engine.feed fuel (.word t)

theorem Settled.runCode_of_starts (hs : s.Settled limits defs) {fuel entry : Nat} {act : Session σ Unit}
    (h : s.Starts fuel entry act) :
    (∀ s', act s = .ok () s' → Engine.runCode fuel entry s = .ok () s') ∧
    (∀ e s', act s = .error e s' → ∃ s₁, Engine.runCode fuel entry s = .error e s₁) := by
  rcases h with rfl | ⟨t, ht, rfl⟩
  · rw [callAddress, recovering_eq]
    rcases Engine.runCode fuel entry s with ⟨_, s₁⟩ | ⟨e, s₁⟩
    · refine ⟨fun s' h => h, fun e s' h => ?_⟩
      cases h
    · refine ⟨fun s' h => ?_, fun e s' h => ?_⟩
      · cases h
      · cases h
        exact ⟨s₁, rfl⟩
  · obtain ⟨xt, e, hf, he, hk⟩ := Dictionary.entry?_eq_some ht
    have hrun : Engine.feed fuel (.word t) s = Engine.runCode fuel entry s := by
      rw [feed_of_run hs.stable.mode, Engine.interpretPhrase, bind_of_ok (get_apply s), Dictionary.sense?, hf]
      exact execute_compiled he hk hs.ip
    rw [hrun]
    exact ⟨fun s' h => h, fun e s' h => ⟨s', h⟩⟩

/-- How the run of a word's code goes, whichever way it was started. -/
structure Safe (s : Engine σ) (codes : List Region) (fuel entry : Nat) : Prop where
  /-- With each step it is at an instruction of completed code. -/
  dispatches : ∀ k m a, k ≤ s.budget.getD fuel → s.dict.runFor k (s.launched entry) = .ok () m →
      m.ip = some a →
    m.memory.Dispatches codes a
  /-- A step that fails with a fault of memory or of the code does so by what its word does. -/
  faults : ∀ k m f m', k ≤ s.budget.getD fuel → s.dict.runFor k (s.launched entry) = .ok () m →
    s.dict.step m = .error f m' → f.isMisread = true → s.dict.OwnFault m f
  /-- So does the run as a whole. -/
  fails : ∀ act f s', s.Starts fuel entry act → act s = .error (.fault f) s' → f.isMisread = true →
      s.Excused fuel entry f
  /-- When it ends the return stack is what it was. -/
  ends : ∀ act s', s.Starts fuel entry act → act s = .ok () s' → s'.machine.ret = s.machine.ret

/-- Compiled code never goes wrong. Where a session has kept the rules, every run of a word's
    code that stores nowhere into code is at an instruction of a completed definition with each
    step and reads nothing that is not there; an execution token that stands for nothing, or an
    operand that is missing, can only be a fault that a word of the host has raised. -/
theorem compiled_code_never_strays {limits : Limits} {host : σ} {s : Engine σ} {codes : List Region}
    (hs : Reached limits host s codes) {fuel entry : Nat} (hw : s.dict.Calls entry)
    (hspares : s.runSpares codes fuel entry = true) : s.Safe codes fuel entry := by
  obtain ⟨defs, rfl, hsettled⟩ := hs.settled
  have hrunning {k : Nat} {m : Machine σ} (hk : k ≤ s.budget.getD fuel)
      (h : s.dict.runFor k (s.launched entry) = .ok () m) : Running s.dict defs s.machine.ret m := by
    have hfares := run_fares (hsettled.running hw) hspares hk
    rwa [h] at hfares
  have hrun := hsettled.runCode hw hspares
  refine ⟨fun k m a hk h => (hrunning hk h).dispatches, fun k m f m' hk h => (hrunning hk h).ownFault, ?_, ?_⟩
  · intro act f s' hact h hf
    obtain ⟨s₁, h₁⟩ := (hsettled.runCode_of_starts hact).2 _ s' h
    rw [h₁] at hrun
    exact hrun.2 f rfl hf
  · intro act s' hact h
    rw [(hsettled.runCode_of_starts hact).1 s' h] at hrun
    exact hrun.1

/-- The host gives a word that returns its argument. -/
def echo : Request Unit := .register "echo" 1 fun args _ => pure args.head?

/-- A text with a word that adds to a variable, and a loop that calls it with what the host returns. -/
def tally : Request Unit := .interpret 0 "t" "variable n : a n +! ; : t 2 0 do i echo a loop ;"

def tallied : Engine Unit := fresh.after [echo, tally]

theorem tally_heeds :
    heeds 0 (Source.ofText "t" "variable n : a n +! ; : t 2 0 do i echo a loop ;").phrases
      (stateAfter echo.act fresh) [] = true ∧
    tally.completions (stateAfter echo.act fresh) = [⟨4, 16⟩, ⟨16, 60⟩] ∧ tallied.dict.entry? "t" = some 16 ∧
    tallied.runSpares [⟨4, 16⟩, ⟨16, 60⟩] 0 16 = true := by
  decide +kernel

theorem compiled_code_never_strays_tally :
    (Reached {} () tallied [⟨4, 16⟩, ⟨16, 60⟩] ∧ tallied.dict.Calls 16 ∧
      tallied.runSpares [⟨4, 16⟩, ⟨16, 60⟩] 0 16 = true) ∧ tallied.Safe [⟨4, 16⟩, ⟨16, 60⟩] 0 16 := by
  obtain ⟨hheeds, hcodes, hentry, hspares⟩ := tally_heeds
  obtain ⟨xt, e, -, he, hk⟩ := Dictionary.entry?_eq_some hentry
  have hcalls : tallied.dict.Calls 16 := ⟨xt, e, he, hk⟩
  have hecho : Reached {} () (stateAfter echo.act fresh) [] := .request echo .new trivial
  have hreached : Reached {} () tallied ([] ++ tally.completions (stateAfter echo.act fresh)) :=
    .request tally hecho hheeds
  rw [List.nil_append, hcodes] at hreached
  exact ⟨⟨hreached, hcalls, hspares⟩, compiled_code_never_strays hreached hcalls hspares⟩

end Engine

end Handheld
