/-
  Handheld.Proofs.Conservation — memory stays as it is until something is stored into it.

  The bytes of a region that has been handed out change only by a store that is aimed into it.
  That holds of one word (`Kind.conserves_perform`), of a run of any code, also of bytes that
  nobody compiled (`Dictionary.conserves_runFor`), of a text, whether it is read to its end or
  fails in the middle of a definition (`Engine.reading_conserves`), and of a session of any
  requests (`Engine.after_conserves`).
-/

import Handheld.Proofs.Budget

namespace Handheld

variable {σ : Type} {R : Region}

/-! ## Regions of memory -/

/-- Memory has only grown, and the region, if it had been handed out, holds what it held. -/
structure Memory.Conserves (R : Region) (m m' : Memory) : Prop where
  here_le : m.here ≤ m'.here
  bytes : R.stop ≤ m.here → ∀ a, R.entry ≤ a → a < R.stop → m'.byteAt a = m.byteAt a

namespace Memory

variable {m m' : Memory}

theorem Conserves.ordered (R : Region) : Ordered (Conserves R) where
  refl _ := ⟨Nat.le_refl _, fun _ _ _ _ => rfl⟩
  trans h g :=
    ⟨Nat.le_trans h.here_le g.here_le, fun hR a ha hb =>
      (g.bytes (Nat.le_trans hR h.here_le) a ha hb).trans (h.bytes hR a ha hb)⟩

theorem Grows.conserves (h : m.Grows m') (R : Region) : m.Conserves R m' :=
  ⟨h.here_le, fun hR a _ hb => h.below a (Nat.lt_of_lt_of_le hb hR)⟩

theorem Stores.conserves {a len : Nat} (h : Stores a len m m') (hR : Apart R.entry R.stop (a, len)) :
    m.Conserves R m' := by
  refine ⟨Nat.le_of_eq h.here.symm, fun _ b hb hb' => h.outside b ?_⟩
  rcases hR with hbelow | habove
  · exact .inr (Nat.le_trans hbelow hb)
  · exact .inl (Nat.lt_of_lt_of_le hb' habove)

end Memory

theorem apart_of_clear_singleton {stores : List (Nat × Nat)} (h : clear [R] stores = true)
    {w : Nat × Nat} (hw : w ∈ stores) : Apart R.entry R.stop w := by
  have hall := List.all_eq_true.mp (List.all_eq_true.mp h w hw) R List.mem_cons_self
  exact of_decide_eq_true hall

/-! ## Runs -/

/-- Where a word stores is on the data stack. -/
theorem Kind.stores_congr (k : Kind σ) {m m' : Machine σ} (h : m'.data = m.data) :
    k.stores m' = k.stores m := by
  cases k with
  | builtin p => simp only [stores, Primitive.target?, h]
  | hook | native | compiled | constant => rfl

theorem Kind.grows_of_isPublic {k : Kind σ} (hk : k.IsPublic) (hs : ∀ p, k = .builtin p → p.isStore = false) :
    Keeps (fun m m' : Machine σ => m.memory.Grows m'.memory) k.perform := by
  cases k with
  | hook act => exact hk.elim
  | builtin p => exact Primitive.grows_run (hs p rfl)
  | compiled entry =>
    have hsame (m : Machine σ) : m.memory.Grows m.memory := Memory.Grows.ordered.refl m.memory
    exact Machine.keeps_call Machine.growing_partWise.toOrdered (fun m _ _ => hsame m)
        (fun m _ _ => hsame m) entry
  | native | constant => exact grows_perform rfl hs

/-- A word whose store, if it makes one, is aimed elsewhere. -/
theorem Kind.conserves_perform {k : Kind σ} (hk : k.IsPublic) {m : Machine σ}
    (hs : ∀ m', k.perform m = .ok () m' → clear [R] (k.stores m) = true) :
    m.memory.Conserves R (stateAfter k.perform m).memory := by
  by_cases hp : ∀ p, k = .builtin p → p.isStore = false
  · exact (grows_of_isPublic hk hp m).conserves R
  · obtain ⟨p, rfl, hstore⟩ : ∃ p, k = .builtin p ∧ p.isStore = true := by simpa using hp
    rcases h : (Kind.builtin p : Kind σ).perform m with ⟨_, m'⟩ | ⟨f, m'⟩
    · obtain ⟨a, len, ht, hm⟩ := Primitive.storeRun_ok hstore h
      rw [stateAfter_ok h]
      exact hm.conserves (apart_of_clear_singleton (hs m' h) (by simp [stores, ht]))
    · rw [stateAfter_error h, Primitive.storeRun_error hstore h]
      exact (Memory.Conserves.ordered R).refl _

namespace Dictionary

variable {d : Dictionary σ} {m : Machine σ}

/-- A step runs the word whose token is at the instruction pointer, or fails before it. -/
theorem step_cases (d : Dictionary σ) {a : Nat} (hip : m.ip = some a) :
    (∃ xt e, d.get? xt = some e ∧ d.dispatched? m = some e ∧
      d.step m = e.kind.perform { m with ip := some (a + 4) }) ∨
      (stateAfter d.step m).memory = m.memory := by
  by_cases hin : m.memory.inBounds a 4 = true
  · have hfetch : Machine.onMemory (Memory.fetchCell a) m = .ok (m.memory.cellAt a) m := by
      rw [Machine.onMemory_eq, Memory.fetchCell_eq, if_pos hin]
    have hcount : d.step m =
        (Machine.count (m.memory.cellAt a) (.badToken (m.memory.cellAt a)) >>= d.perform)
          { m with ip := some (a + 4) } := by
      rw [d.step_of_some hip, bind_of_ok hfetch]
      rfl
    rw [dispatched?, hip, Option.bind_some]
    unfold stateAfter
    rw [hcount, Machine.count]
    cases (m.memory.cellAt a).toNat? with
    | none => exact .inr rfl
    | some xt =>
      rw [pure_bind, perform]
      cases he : d.get? xt with
      | none => exact .inr rfl
      | some e => exact .inl ⟨xt, e, he, he, rfl⟩
  · have hfetch :
        Machine.onMemory (Memory.fetchCell a) m =
          .error (.memory (.outOfBounds (Memory.signedAddr a) 4)) m := by
      rw [Machine.onMemory_eq, Memory.fetchCell_eq, if_neg hin]
    have herror : d.step m = .error (.memory (.outOfBounds (Memory.signedAddr a) 4)) m := by
      rw [d.step_of_some hip, bind_of_error hfetch]
    rw [stateAfter_error herror]
    exact .inr rfl

theorem conserves_step (hd : d.All Kind.IsPublic)
    (hs : ∀ m', d.step m = .ok () m' → clear [R] (d.stepStores m) = true) :
    m.memory.Conserves R (stateAfter d.step m).memory := by
  cases hip : m.ip with
  | none =>
    rw [stateAfter_ok (d.step_of_none hip)]
    exact (Memory.Conserves.ordered R).refl _
  | some a =>
    rcases d.step_cases hip with ⟨xt, e, he, hdispatched, hstep⟩ | hsame
    · have hstores : d.stepStores m = e.kind.stores { m with ip := some (a + 4) } := by
        rw [stepStores, hdispatched]
        exact (Kind.stores_congr e.kind rfl).symm
      have hword :=
        Kind.conserves_perform (R := R) (hd xt e he) (m := { m with ip := some (a + 4) }) fun m' h => by
        rw [← hstores]
        exact hs m' (hstep.trans h)
      unfold stateAfter at hword ⊢
      rwa [hstep]
    · rw [hsame]
      exact (Memory.Conserves.ordered R).refl _

/-- A run of any code. -/
theorem conserves_runFor (hd : d.All Kind.IsPublic) {n : Nat} (hs : d.spares [R] n m = true) :
    m.memory.Conserves R (stateAfter (d.runFor n) m).memory := by
  induction n generalizing m with
  | zero => exact (Memory.Conserves.ordered R).refl _
  | succ n ih =>
    cases hip : m.ip with
    | none =>
      rw [stateAfter_ok (d.runFor_of_ip_none hip _)]
      exact (Memory.Conserves.ordered R).refl _
    | some a =>
      have hsome : m.ip.isSome = true := by rw [hip]; rfl
      rw [spares, hip] at hs
      have hstep : m.memory.Conserves R (stateAfter d.step m).memory := conserves_step hd fun m' h => by
        rw [h] at hs
        exact (Bool.and_eq_true_iff.mp hs).1
      unfold stateAfter at hstep ⊢
      rw [d.runFor_succ hsome, bind_apply]
      rcases h : d.step m with ⟨_, m'⟩ | ⟨f, m'⟩
      · rw [h] at hs hstep
        exact (Memory.Conserves.ordered R).trans hstep (ih (Bool.and_eq_true_iff.mp hs).2)
      · rw [h] at hstep
        exact hstep

end Dictionary

/-! ## Texts and requests -/

namespace Engine

/-- The phrase stores nowhere into code. Inside of a definition it runs nothing. -/
def phraseSpares (s : Engine σ) (codes : List Region) (fuel : Nat) (p : Phrase) : Bool :=
  match s.mode, p with
  | .run, .word t => (s.dict.named? t.text).all fun e => s.wordSpares codes fuel e.kind
  | _, _ => true

/-- No phrase stores into code, as far as the reading comes. -/
def textSpares (codes : List Region) (fuel : Nat) : List Phrase → Engine σ → Bool
  | [], _ => true
  | p :: ps, s =>
    s.phraseSpares codes fuel p &&
      match feed fuel p s with
      | .ok _ s' => textSpares codes fuel ps s'
      | .error _ _ => true

end Engine

/-- The request stores nowhere into code. -/
def Request.spares (s : Engine σ) (codes : List Region) : Request σ → Bool
  | .register _ _ _ => true
  | .interpret fuel label text => Engine.textSpares codes fuel (Source.ofText label text).phrases s
  | .call fuel addr => s.runSpares codes fuel addr

namespace Engine

/-- None of the requests, each granted or failed, stores into code. -/
def spares (codes : List Region) : List (Request σ) → Engine σ → Bool
  | [], _ => true
  | r :: rs, s => r.spares s codes && spares codes rs (stateAfter r.act s)

variable {limits : Limits} {s s' : Engine σ}

theorem textSpares_append {codes : List Region} {fuel : Nat} {ps qs : List Phrase}
    (h : textSpares codes fuel (ps ++ qs) s = true)
    (hrun : feedAll fuel ps s = .ok () s') : textSpares codes fuel qs s' = true := by
  induction ps generalizing s with
  | nil => cases hrun; exact h
  | cons p ps ih =>
    obtain ⟨_, s₁, hp, hps⟩ := bind_ok_iff.mp hrun
    obtain ⟨-, hrest⟩ := Bool.and_eq_true_iff.mp h
    rw [hp] at hrest
    exact ih hrest hps

/-- The memory of one engine and of a later one. -/
abbrev Conserves (R : Region) (s s' : Engine σ) : Prop := s.machine.memory.Conserves R s'.machine.memory

theorem conserves_allows (R : Region) :
    Allows (Conserves (σ := σ) R) (fun m m' => m.memory.Conserves R m'.memory) where
  refl s := (Memory.Conserves.ordered R).refl s.machine.memory
  trans := (Memory.Conserves.ordered R).trans
  parts :=
    { refl := fun m => (Memory.Conserves.ordered R).refl m.memory
      trans := (Memory.Conserves.ordered R).trans
      data := fun m _ _ => (Memory.Conserves.ordered R).refl m.memory
      memory := fun _ _ h => h.conserves R
      output := fun m _ _ => (Memory.Conserves.ordered R).refl m.memory }
  machine _ _ h := h
  constant s _ _ := (Memory.Conserves.ordered R).refl s.machine.memory

theorem runCode_conserves (hs : s.Stable limits) {fuel entry : Nat} (h : s.runSpares [R] fuel entry = true) :
    s.Conserves R (stateAfter (runCode fuel entry) s) := by
  rw [stateAfter_runCode]
  exact Dictionary.conserves_runFor hs.dict.isPublic h

theorem execute_conserves (hs : s.Stable limits) (hip : s.machine.ip = none) {fuel xt : Nat} {e : Entry σ}
    (he : s.dict.get? xt = some e) (hv : e.hidden = false) (h : s.wordSpares [R] fuel e.kind = true) :
    s.Conserves R (stateAfter (execute fuel xt) s) := by
  rcases hs.ordinary he hv with ⟨entry, hk⟩ | ho
  · rw [hk] at h
    have hrun := runCode_conserves hs h
    unfold stateAfter at hrun ⊢
    rwa [execute_compiled he hk hip]
  · have hword := Kind.conserves_perform (R := R) (hs.dict.isPublic xt e he) (m := s.machine) fun m' hm => by
      rwa [wordSpares_of_ok ho hm] at h
    have hact : stateAfter (execute fuel xt) s = stateAfter (onMachine e.kind.perform) s := by
      unfold stateAfter
      rw [execute_ordinary he ho]
    rw [hact, stateAfter_onMachine]
    exact hword

/-- A phrase that acts at once. -/
theorem interpretPhrase_conserves (hs : s.Stable limits) (hip : s.machine.ip = none) {fuel : Nat} {p : Phrase}
    (hp : ∀ t name, p ≠ .define .colon t name) (h : s.phraseSpares [R] fuel p = true) :
    s.Conserves R (stateAfter (interpretPhrase fuel p) s) := by
  rcases (conserves_allows R).interpretPhrase fuel hp s with ⟨t, xt, rfl, hf, hrun⟩ | hkeeps
  · obtain ⟨e, he, hv⟩ := Dictionary.find?_visible hf
    simp only [phraseSpares, hs.mode, Dictionary.named?, hf, Option.bind_some, he, Option.all_some] at h
    have hword := execute_conserves hs hip he hv h
    unfold stateAfter at hword ⊢
    rwa [hrun]
  · exact hkeeps

theorem Intact.conserves (hi : s.Intact s') (R : Region) : s.Conserves R s' :=
  ⟨Nat.le_of_eq hi.here.symm, fun hR a _ hb => hi.below a (Nat.lt_of_lt_of_le hb hR)⟩

/-- A text that stores nowhere into the region, read to its end or not. -/
theorem reading_conserves (hs : s.Stable limits) (hip : s.machine.ip = none) {fuel : Nat} {ps : List Phrase}
    (h : textSpares [R] fuel ps s = true) :
    match (feedAll fuel ps >>= fun _ => finish) s with
    | .ok _ s' => s.Conserves R s'
    | .error _ s' => s.Conserves R s'.discardDraft := by
  have ho := Memory.Conserves.ordered R
  have hread := @reading_induction σ fuel
    (fun ps s' => (s.Evolves limits s' ∧ s'.machine.ip = none) ∧ textSpares [R] fuel ps s' = true ∧
      s.Conserves R s')
    (fun s' => s.Conserves R s')
    (fun h => ⟨h.1.1.stable.mode, h.1.1.stable.machine.valid⟩) ?_ ?_
    (fun h hi => ho.trans h.2.2 (hi.conserves R)) ?_ ps s ⟨⟨.refl hs, hip⟩, h, ho.refl _⟩
  · rcases e : (feedAll fuel ps >>= fun _ => finish) s with ⟨_, s'⟩ | ⟨f, s'⟩
    · rw [e] at hread
      exact hread.2.2
    · rw [e] at hread
      exact hread
  · rintro p ps s₁ s₂ ⟨⟨hs₁, hip₁⟩, hspares, hkept⟩ hp hrun
    obtain ⟨hphrase, hrest⟩ := Bool.and_eq_true_iff.mp hspares
    obtain ⟨he, hi⟩ := interpretPhrase_evolves hs₁.stable hip₁ fuel hp
    have hk := interpretPhrase_conserves hs₁.stable hip₁ hp hphrase
    rw [stateAfter_ok hrun] at he hk
    rw [feed_of_run hs₁.stable.mode, hrun] at hrest
    exact ⟨⟨hs₁.trans he, hi s₂ hrun⟩, hrest, ho.trans hkept hk⟩
  · rintro p ps s₁ e s₂ ⟨⟨hs₁, hip₁⟩, hspares, hkept⟩ hp hrun
    obtain ⟨he, -⟩ := interpretPhrase_evolves hs₁.stable hip₁ fuel hp
    have hk := interpretPhrase_conserves hs₁.stable hip₁ hp (Bool.and_eq_true_iff.mp hspares).1
    rw [stateAfter_error hrun] at he hk
    rw [discardDraft_of_run he.stable.mode]
    exact ho.trans hkept hk
  · rintro t w qs u rest b s₁ s₂ ⟨⟨hs₁, hip₁⟩, hspares, hkept⟩ hrun - hd
    refine ⟨⟨hs₁.trans (hd.evolves hs₁.stable), ?_⟩, textSpares_append hspares hrun,
        ho.trans hkept (hd.memory.conserves R)⟩
    rw [hd.engine]
    exact hip₁

/-- Recovering from a fault takes back a definition and nothing else of the memory. -/
theorem recovering_conserves {act : Session σ Unit} (hok : ∀ s', act s = .ok () s' → s.Conserves R s')
    (herror : ∀ e s', act s = .error e s' → s.Conserves R s'.discardDraft) :
    s.Conserves R (stateAfter (recovering act) s) := by
  unfold stateAfter
  rw [recovering_eq]
  cases h : act s with
  | ok a s' => exact hok s' h
  | error e s' => exact herror e s' h

theorem request_conserves (hs : s.Stable limits) (hip : s.machine.ip = none) {r : Request σ}
    (h : r.spares s [R] = true) : s.Conserves R (stateAfter r.act s) := by
  cases r with
  | register name arity f =>
    show s.Conserves R (stateAfter (register name (.native arity f)) s)
    unfold register
    split <;> exact (Memory.Conserves.ordered R).refl _
  | interpret fuel label text =>
    have hread := reading_conserves hs hip h
    refine recovering_conserves (fun s' hrun => ?_) fun e s' hrun => ?_
    · rw [hrun] at hread; exact hread
    · rw [hrun] at hread; exact hread
  | call fuel addr =>
    have hcode := runCode_conserves hs h
    obtain ⟨he, -⟩ := runCode_evolves hs fuel addr
    refine recovering_conserves (fun s' hrun => ?_) fun e s' hrun => ?_
    · rwa [stateAfter_ok hrun] at hcode
    · rw [stateAfter_error hrun] at hcode he
      rwa [discardDraft_of_run he.stable.mode]

/-- A session that stores nowhere into the region. -/
theorem after_conserves (hs : s.Stable limits) (hip : s.machine.ip = none) {rs : List (Request σ)}
    (h : spares [R] rs s = true) : s.Conserves R (s.after rs) := by
  induction rs generalizing s with
  | nil => exact (Memory.Conserves.ordered R).refl _
  | cons r rs ih =>
    obtain ⟨hr, hrest⟩ := Bool.and_eq_true_iff.mp h
    obtain ⟨⟨he, hi⟩, -⟩ := request_evolves hs hip r
    exact (Memory.Conserves.ordered R).trans (request_conserves hs hip hr) (ih he.stable hi hrest)

end Engine

end Handheld
