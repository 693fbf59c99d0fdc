/-
  Handheld.Proofs.Budget — a step budget is exact, and under one every text comes to an end.

  A run dispatches instructions until the code returns or one of them fails; `dispatches` is
  their number, infinite for a run that does neither. With a budget of at least that many the
  run ends as it would without one; with less it is stopped after exactly as many instructions
  as the budget has, and all but the stacks is as those left it (`Budgeted`). Every word of a
  text begins a run of its own, so a text runs at most the budget for each of its phrases, and
  it has no more phrases than characters.
-/

import Handheld.Proofs.Safety
import Handheld.Proofs.Simulation
import Mathlib.Data.ENat.Lattice
import Mathlib.Order.CompletePartialOrder

namespace Handheld

variable {σ : Type}

/-! ## Counting instructions -/

namespace Dictionary

/-- Exactly `n` instructions are dispatched, and none of them fails. -/
inductive Steps (d : Dictionary σ) : Nat → Machine σ → Machine σ → Prop
  | zero (m : Machine σ) : Steps d 0 m m
  | succ {n : Nat} {m m₁ m' : Machine σ} :
    m.ip.isSome = true → d.step m = .ok () m₁ → Steps d n m₁ m' → Steps d (n + 1) m m'

/-- How many instructions `runFor n` dispatches. One that fails is the last. -/
def countFor (d : Dictionary σ) : Nat → Machine σ → Nat
  | 0, _ => 0
  | n + 1, m =>
    if m.ip.isSome then
      match d.step m with
      | .ok _ m₁ => d.countFor n m₁ + 1
      | .error _ _ => 1
    else 0

/-- How many instructions the run dispatches in all. -/
noncomputable def dispatches (d : Dictionary σ) (m : Machine σ) : ℕ∞ := ⨆ n, (d.countFor n m : ℕ∞)

variable {d : Dictionary σ} {m m' : Machine σ} {n : Nat}

theorem Steps.runFor_eq (h : d.Steps n m m') : d.runFor n m = .ok () m' := by
  induction h with
  | zero m => rfl
  | succ hip hstep _ ih => rw [d.runFor_succ hip, bind_of_ok hstep, ih]

theorem countFor_of_ip_none (h : m.ip = none) (n : Nat) : d.countFor n m = 0 := by
  cases n with
  | zero => rfl
  | succ n => rw [countFor, h]; rfl

theorem countFor_of_ok (hip : m.ip.isSome = true) (h : d.step m = .ok () m') (n : Nat) :
    d.countFor (n + 1) m = d.countFor n m' + 1 := by
  rw [countFor, if_pos hip, h]

theorem countFor_of_error {f : Fault} (hip : m.ip.isSome = true) (h : d.step m = .error f m') (n : Nat) :
    d.countFor (n + 1) m = 1 := by
  rw [countFor, if_pos hip, h]

theorem countFor_le (n : Nat) (m : Machine σ) : d.countFor n m ≤ n := by
  induction n generalizing m with
  | zero => exact Nat.le_refl 0
  | succ n ih =>
    rw [countFor]
    split
    · split
      · exact Nat.succ_le_succ (ih _)
      · exact Nat.succ_le_succ (Nat.zero_le n)
    · exact Nat.zero_le _

/-- After `n` instructions the run still goes on, and then dispatches more, or it is over, and
    has dispatched no more than those. -/
theorem steps_or_over (d : Dictionary σ) (n : Nat) (m : Machine σ) :
    (∃ m', d.Steps n m m' ∧ m'.ip.isSome = true ∧ n < d.countFor (n + 1) m) ∨
      (Over (d.runFor n m) ∧ ∀ k, d.countFor k m ≤ n) := by
  induction n generalizing m with
  | zero =>
    cases hip : m.ip with
    | none => exact .inr ⟨hip, fun k => Nat.le_of_eq (countFor_of_ip_none hip k)⟩
    | some a =>
      have hsome : m.ip.isSome = true := by rw [hip]; rfl
      refine .inl ⟨m, .zero m, hsome, ?_⟩
      rw [countFor, if_pos hsome]
      split
      · exact Nat.succ_pos _
      · exact Nat.one_pos
  | succ n ih =>
    cases hip : m.ip with
    | none =>
      refine .inr ⟨?_, fun k => ?_⟩
      · rw [d.runFor_of_ip_none hip]
        exact hip
      · rw [countFor_of_ip_none hip]
        exact Nat.zero_le _
    | some a =>
      have hsome : m.ip.isSome = true := by rw [hip]; rfl
      rcases hstep : d.step m with ⟨_, m₁⟩ | ⟨f, m₁⟩
      · rcases ih m₁ with ⟨m', hsteps, hgoes, hcount⟩ | ⟨hover, hcount⟩
        · refine .inl ⟨m', .succ hsome hstep hsteps, hgoes, ?_⟩
          rw [countFor_of_ok hsome hstep]
          exact Nat.succ_lt_succ hcount
        · refine .inr ⟨?_, fun k => ?_⟩
          · rw [d.runFor_succ hsome, bind_of_ok hstep]
            exact hover
          · cases k with
            | zero => exact Nat.zero_le _
            | succ k =>
              rw [countFor_of_ok hsome hstep]
              exact Nat.succ_le_succ (hcount k)
      · refine .inr ⟨?_, fun k => ?_⟩
        · rw [d.runFor_succ hsome, bind_of_error hstep]
          trivial
        · cases k with
          | zero => exact Nat.zero_le _
          | succ k =>
            rw [countFor_of_error hsome hstep]
            exact Nat.succ_le_succ (Nat.zero_le n)

theorem steps_of_lt_dispatches (h : (n : ℕ∞) < d.dispatches m) :
    ∃ m', d.Steps n m m' ∧ m'.ip.isSome = true := by
  rcases d.steps_or_over n m with ⟨m', hsteps, hgoes, -⟩ | ⟨-, hcount⟩
  · exact ⟨m', hsteps, hgoes⟩
  · exact absurd h (not_lt.mpr (iSup_le fun k => Nat.cast_le.mpr (hcount k)))

/-- The number of instructions is the least number of steps in which the run is over. -/
theorem dispatches_le_iff : d.dispatches m ≤ n ↔ Over (d.runFor n m) := by
  rcases d.steps_or_over n m with ⟨m', hsteps, hgoes, hcount⟩ | ⟨hover, hcount⟩
  · have hlt : (n : ℕ∞) < d.dispatches m :=
      lt_of_lt_of_le (Nat.cast_lt.mpr hcount) (le_iSup (fun k => (d.countFor k m : ℕ∞)) (n + 1))
    refine ⟨fun h => absurd h (not_le.mpr hlt), fun h => ?_⟩
    rw [hsteps.runFor_eq] at h
    rw [show m'.ip = none from h] at hgoes
    cases hgoes
  · exact ⟨fun _ => hover, fun _ => iSup_le fun k => Nat.cast_le.mpr (hcount k)⟩

theorem dispatches_le_of_ip_none (hok : succeeds (d.runFor n) m = true)
    (hip : (stateAfter (d.runFor n) m).ip = none) : d.dispatches m ≤ n := by
  rw [dispatches_le_iff, ok_of_succeeds hok]
  exact hip

theorem lt_dispatches_of_ip_some {a : Nat} (hok : succeeds (d.runFor n) m = true)
    (hip : (stateAfter (d.runFor n) m).ip = some a) : (n : ℕ∞) < d.dispatches m := by
  rw [← not_le, dispatches_le_iff, ok_of_succeeds hok]
  intro h
  rw [show (stateAfter (d.runFor n) m).ip = none from h] at hip
  cases hip

end Dictionary

/-! ## Runs under a budget -/

namespace Engine

/-- The same engine under another budget, or under none. -/
def withBudget (s : Engine σ) (budget : Option Nat) : Engine σ := { s with budget := budget }

/-- The engine after a run that was broken off: the stacks are empty, all else is as the run
    left it. -/
def stopped (s : Engine σ) (m : Machine σ) : Engine σ := { s with machine := m.reset }

/-- How many instructions the code at `entry` runs, called from outside. -/
noncomputable def dispatches (s : Engine σ) (entry : Nat) : ℕ∞ := s.dict.dispatches (s.launched entry)

/-- What a budget does to a call that runs the code at `entry`. -/
structure Budgeted (limit entry : Nat) (s : Engine σ) (call : Nat → Session σ Unit) : Prop where
  /-- Without a budget, the call needs just as many steps as the code has instructions to run. -/
  needed : ∀ fuel : Nat, (∃ s', call fuel (s.withBudget none) = .error .unfinished s') ↔
      fuel < s.dispatches entry
  /-- A budget that is large enough changes nothing. -/
  harmless : s.dispatches entry ≤ limit → ∀ fuel fuel' : Nat, s.dispatches entry ≤ fuel' →
    call fuel (s.withBudget (some limit)) =
      mapState (·.withBudget (some limit)) (call fuel' (s.withBudget none))
  /-- One that is not stops the run right there. -/
  exceeded : limit < s.dispatches entry → ∀ fuel, ∃ m, s.dict.Steps limit (s.launched entry) m ∧
    call fuel (s.withBudget (some limit)) =
      .error (.fault (.budgetExceeded limit)) ((s.withBudget (some limit)).stopped m)

variable {s : Engine σ} {limit entry fuel : Nat}

theorem recover_withBudget (s : Engine σ) (budget : Option Nat) :
    (s.withBudget budget).recover = s.recover.withBudget budget := by
  obtain ⟨dict, machine, mode, _⟩ := s
  cases mode <;> rfl

theorem runCode_launched (fuel entry : Nat) (s : Engine σ) :
    runCode fuel entry s =
      match s.dict.runFor (s.budget.getD fuel) (s.launched entry) with
      | .ok _ m =>
        if m.ip.isSome then .error (overrun s.budget) { s with machine := m }
        else .ok () { s with machine := m }
      | .error f m => .error (.fault f) { s with machine := m } :=
  runCode_eq fuel entry s

theorem stateAfter_runCode (fuel entry : Nat) (s : Engine σ) :
    stateAfter (runCode fuel entry) s =
      { s with machine := stateAfter (s.dict.runFor (s.budget.getD fuel)) (s.launched entry) } := by
  unfold stateAfter
  rw [runCode_launched]
  rcases s.dict.runFor (s.budget.getD fuel) (s.launched entry) with ⟨_, m⟩ | ⟨f, m⟩
  · by_cases hip : m.ip.isSome = true
    · simp only [hip, if_true]
    · simp only [hip, Bool.false_eq_true, if_false]
  · rfl

/-- A run that does not end within its steps is broken off where they leave it. -/
theorem runCode_of_steps {m : Machine σ} (hm : s.dict.Steps (s.budget.getD fuel) (s.launched entry) m)
    (hgoes : m.ip.isSome = true) :
    runCode fuel entry s = .error (overrun s.budget) { s with machine := m } := by
  rw [runCode_launched, hm.runFor_eq]
  exact if_pos hgoes

/-- A run that ends is never unfinished. -/
theorem runCode_of_over
    (hover : Dictionary.Over (s.dict.runFor (s.budget.getD fuel) (s.launched entry))) (s' : Engine σ) :
    runCode fuel entry s ≠ .error .unfinished s' := by
  rw [runCode_launched]
  rcases h : s.dict.runFor (s.budget.getD fuel) (s.launched entry) with ⟨_, m⟩ | ⟨f, m⟩
  · rw [h] at hover
    have hip : m.ip = none := hover
    simp [hip]
  · simp

/-- Runs of the same code that both end, end alike. -/
theorem runCode_withBudget {fuel' : Nat} (hover : Dictionary.Over (s.dict.runFor limit (s.launched entry)))
    (hover' : Dictionary.Over (s.dict.runFor fuel' (s.launched entry))) :
    runCode fuel entry (s.withBudget (some limit)) =
      mapState (·.withBudget (some limit)) (runCode fuel' entry (s.withBudget none)) := by
  have hsame := Dictionary.runFor_unique hover hover'
  rw [runCode_launched, runCode_launched]
  show (match s.dict.runFor limit (s.launched entry) with
    | .ok _ m => _
    | .error f m => _) = mapState _ (match s.dict.runFor fuel' (s.launched entry) with
    | .ok _ m => _
    | .error f m => _)
  rw [← hsame]
  rcases h : s.dict.runFor limit (s.launched entry) with ⟨_, m⟩ | ⟨f, m⟩
  · rw [h] at hover
    have hip : m.ip = none := hover
    simp only [hip, Option.isSome_none, Bool.false_eq_true, if_false]
    rfl
  · rfl

theorem recovering_withBudget {act act' : Session σ Unit} {t t' : Engine σ} {budget : Option Nat}
    (h : act t = mapState (·.withBudget budget) (act' t')) :
    recovering act t = mapState (·.withBudget budget) (recovering act' t') := by
  rw [recovering_eq, recovering_eq, h]
  rcases act' t' with ⟨_, r⟩ | ⟨e, r⟩
  · rfl
  · simp only [mapState, recover_withBudget]

theorem recovering_unfinished_iff {act : Session σ Unit} :
    (∃ s', recovering act s = .error .unfinished s') ↔ ∃ s', act s = .error .unfinished s' := by
  rw [recovering_eq]
  cases act s with
  | ok a t => simp
  | error e t => simp

/-- A call that recovers after running the code at `entry`, whatever it is by. -/
theorem budgeted_of_runCode (hm : s.mode = .run) (limit : Nat) {act : Nat → Session σ Unit}
    (hact : ∀ fuel budget, act fuel (s.withBudget budget) = runCode fuel entry (s.withBudget budget)) :
    Budgeted limit entry s (fun fuel => recovering (act fuel)) where
  needed fuel := by
    rw [recovering_unfinished_iff, hact]
    constructor
    · rintro ⟨s', h⟩
      refine not_le.mp fun hle => ?_
      exact runCode_of_over (s := s.withBudget none) (Dictionary.dispatches_le_iff.mp hle) s' h
    · intro hlt
      obtain ⟨m, hsteps, hgoes⟩ := Dictionary.steps_of_lt_dispatches hlt
      exact ⟨_, runCode_of_steps (s := s.withBudget none) hsteps hgoes⟩
  harmless hle fuel fuel' hle' := by
    refine recovering_withBudget ?_
    rw [hact, hact]
    exact runCode_withBudget (Dictionary.dispatches_le_iff.mp hle) (Dictionary.dispatches_le_iff.mp hle')
  exceeded hlt fuel := by
    obtain ⟨m, hsteps, hgoes⟩ := Dictionary.steps_of_lt_dispatches hlt
    refine ⟨m, hsteps, ?_⟩
    rw [recovering_eq, hact, runCode_of_steps (s := s.withBudget (some limit)) hsteps hgoes]
    simp only [recover, discardDraft_of_run (s := { s.withBudget (some limit) with machine := m }) hm]
    rfl

/-! ## Phrases of a text -/

/-- The code that a phrase runs, when it is read outside of a definition and of any run. -/
def called? (s : Engine σ) : Phrase → Option Nat
  | .word t =>
    match s.mode, s.machine.ip, s.dict.sense? t.text with
    | .run, none, some (.word xt) =>
      match s.dict.get? xt with
      | some ⟨_, .compiled entry, _⟩ => some entry
      | _ => none
    | _, _, _ => none
  | _ => none

theorem called?_eq_some {p : Phrase} (h : s.called? p = some entry) :
    s.mode = .run ∧ ∀ fuel budget,
      feed fuel p (s.withBudget budget) = runCode fuel entry (s.withBudget budget) := by
  cases p with
  | control | define | text | comment => cases h
  | word t =>
    simp only [called?] at h
    split at h
    · next xt hm hip hsense =>
      split at h
      · next name entry' hidden he =>
        cases h
        refine ⟨hm, fun fuel budget => ?_⟩
        have hsense' : (s.withBudget budget).dict.sense? t.text = some (.word xt) := hsense
        rw [feed_of_run (s := s.withBudget budget) hm, interpretPhrase, bind_of_ok (get_apply _), hsense']
        exact execute_compiled (s := s.withBudget budget) he rfl hip
      · cases h
    · cases h

/-- A word runs code, or acts on the machine whatever the steps. The dictionary and the pointer
    decide which. -/
theorem execute_cases (xt : Nat) (s : Engine σ) :
    (∃ entry, ∀ fuel t, t.dict = s.dict → t.machine.ip = s.machine.ip →
      execute fuel xt t = runCode fuel entry t) ∨
      ∀ fuel t, t.dict = s.dict → t.machine.ip = s.machine.ip →
      execute fuel xt t = onMachine (s.dict.perform xt) t := by
  cases he : s.dict.get? xt with
  | none =>
    right
    intro fuel t hd _
    rw [execute, bind_of_ok (get_apply t), bind_of_ok (get_apply t), hd, he]
  | some e =>
    obtain ⟨name, kind, hidden⟩ := e
    cases kind with
    | compiled entry =>
      cases hip : s.machine.ip with
      | none => exact .inl ⟨entry, fun fuel t hd ht => execute_compiled (hd ▸ he) rfl ht⟩
      | some a =>
        right
        intro fuel t hd ht
        rw [execute, bind_of_ok (get_apply t), bind_of_ok (get_apply t), hd, he, ht]
    | builtin | hook | native | constant =>
      right
      intro fuel t hd _
      rw [execute, bind_of_ok (get_apply t), bind_of_ok (get_apply t), hd, he]

/-- Running a word changes nothing but the machine. -/
theorem execute_ok {fuel xt : Nat} {s' : Engine σ} (h : execute fuel xt s = .ok () s') :
    ∃ m, s' = { s with machine := m } := by
  rcases execute_cases xt s with ⟨entry, hrun⟩ | hact
  · rw [hrun fuel s rfl rfl] at h
    obtain ⟨m, -, hm⟩ := runCode_ok h
    exact ⟨m, hm⟩
  · rw [hact fuel s rfl rfl] at h
    obtain ⟨m, -, hm⟩ := onMachine_ok h
    exact ⟨m, hm⟩

/-! ## Whole texts under a budget -/

theorem runCode_fuel (hb : s.budget = some limit) (fuel fuel' : Nat) :
    runCode fuel entry s = runCode fuel' entry s := by
  rw [runCode_launched, runCode_launched, hb]
  rfl

theorem execute_fuel (hb : s.budget = some limit) (fuel fuel' xt : Nat) :
    execute fuel xt s = execute fuel' xt s := by
  rcases execute_cases xt s with ⟨entry, hrun⟩ | hact
  · rw [hrun _ s rfl rfl, hrun _ s rfl rfl]
    exact runCode_fuel hb fuel fuel'
  · rw [hact _ s rfl rfl, hact _ s rfl rfl]

/-- With a budget it does not matter how long the caller would wait. -/
theorem feed_fuel (hb : s.budget = some limit) (fuel fuel' : Nat) (p : Phrase) :
    feed fuel p s = feed fuel' p s := by
  cases hm : s.mode with
  | compile d => rw [feed_of_compile hm, feed_of_compile hm]
  | run =>
    rw [feed_of_run hm, feed_of_run hm]
    cases p with
    | word t =>
      rw [interpretPhrase, interpretPhrase, bind_of_ok (get_apply s), bind_of_ok (get_apply s)]
      rcases s.dict.sense? t.text with _ | ⟨xt⟩ | ⟨v⟩
      · rfl
      · exact execute_fuel hb fuel fuel' xt
      · rfl
    | control | define | comment => rfl
    | text u t body => cases body <;> rfl

/-- Begun under the budget, it is still under it when it succeeds, and where it fails it is by a
    fault: nobody lost patience. -/
structure Prompt (limit : Nat) {α : Type} (x : Session σ α) : Prop where
  ok {s s' : Engine σ} {a : α} : s.budget = some limit → x s = .ok a s' → s'.budget = some limit
  error {s s' : Engine σ} {e : Halt} : s.budget = some limit → x s = .error e s' → ∃ f, e = .fault f

theorem prompt_onMachine (limit : Nat) {α : Type} (act : Act σ α) : Prompt limit (onMachine act) where
  ok hb h := by
    obtain ⟨m, -, rfl⟩ := onMachine_ok h
    exact hb
  error _ h := by
    obtain ⟨f, m, rfl, -, -⟩ := onMachine_error h
    exact ⟨f, rfl⟩

theorem prompt_modify {f : Engine σ → Engine σ} (hf : ∀ s, (f s).budget = s.budget) :
    Prompt limit (modify f) where
  ok {s} _ _ hb h := by
    cases h
    exact (hf s).trans hb
  error _ h := by cases h

/-- Nothing is asked of the machine. -/
theorem any_partWise : Machine.PartWise (σ := σ) fun _ _ => True where
  refl _ := trivial
  trans _ _ := trivial
  data _ _ _ := trivial
  memory _ _ _ := trivial
  output _ _ _ := trivial

theorem interpreting_prompt (limit : Nat) :
    Interpreting (σ := σ) (fun x => Keeps (fun _ _ => True) x) fun x => Prompt limit x where
  pure _ := ⟨fun hb h => (by cases h; exact hb), fun _ h => (by cases h)⟩
  bind hx hf := by
    constructor
    · intro s s' b hb h
      obtain ⟨a, s₁, h₁, h₂⟩ := bind_ok_iff.mp h
      exact (hf a).ok (hx.ok hb h₁) h₂
    · intro s s' e hb h
      rcases bind_error_iff.mp h with h | ⟨a, s₁, h₁, h₂⟩
      · exact hx.error hb h
      · exact (hf a).error (hx.ok hb h₁) h₂
  here hf :=
    ⟨fun {s} _ _ hb h => (hf s.machine.memory.here).ok hb h,
     fun {s} _ _ hb h => (hf s.machine.memory.here).error hb h⟩
  sense word f hf := by
    constructor
    · intro s s' a hb h
      obtain ⟨x, hx, heq⟩ := hf (s.dict.sense? word)
      rw [bind_of_ok (get_apply s), heq s rfl] at h
      exact hx.ok hb h
    · intro s s' e hb h
      obtain ⟨x, hx, heq⟩ := hf (s.dict.sense? word)
      rw [bind_of_ok (get_apply s), heq s rfl] at h
      exact hx.error hb h
  fail f _ := ⟨fun _ h => (by cases h), fun _ h => (by cases h; exact ⟨f, rfl⟩)⟩
  cell _ := prompt_onMachine limit _
  bumpCell _ := prompt_onMachine limit _
  bumpBytes _ := prompt_onMachine limit _
  align := prompt_onMachine limit _
  closed := any_partWise.closed
  machine _ := prompt_onMachine limit _
  constant _ _ := prompt_modify fun _ => rfl

theorem compiling_prompt (limit : Nat) (d : Draft) : Compiling (σ := σ) d 0 fun x => Prompt limit x where
  toReading := (interpreting_prompt limit).toReading
  storeCell _ _ := prompt_onMachine limit _
  setOpened _ := prompt_modify fun _ => rfl

theorem prompt_runCode (limit fuel entry : Nat) : Prompt limit (runCode (σ := σ) fuel entry) := by
  constructor
  · intro s s' _ hb h
    rw [runCode_launched] at h
    split at h
    · split at h <;> cases h
      exact hb
    · cases h
  · intro s s' e hb h
    rw [runCode_launched] at h
    split at h
    · split at h <;> cases h
      rw [hb]
      exact ⟨_, rfl⟩
    · cases h
      exact ⟨_, rfl⟩

theorem prompt_execute (limit fuel xt : Nat) : Prompt limit (execute (σ := σ) fuel xt) := by
  constructor
  · intro s s' _ hb h
    rcases execute_cases xt s with ⟨entry, hrun⟩ | hact
    · rw [hrun fuel s rfl rfl] at h
      exact (prompt_runCode limit fuel entry).ok hb h
    · rw [hact fuel s rfl rfl] at h
      exact (prompt_onMachine limit _).ok hb h
  · intro s s' e hb h
    rcases execute_cases xt s with ⟨entry, hrun⟩ | hact
    · rw [hrun fuel s rfl rfl] at h
      exact (prompt_runCode limit fuel entry).error hb h
    · rw [hact fuel s rfl rfl] at h
      exact (prompt_onMachine limit _).error hb h

theorem prompt_openDraft (limit : Nat) (name : String) : Prompt limit (openDraft (σ := σ) name) := by
  have hi := interpreting_prompt (σ := σ) limit
  exact hi.bind hi.getHere fun _ => hi.bind hi.align fun _ => hi.bind hi.getHere fun _ =>
      prompt_modify fun _ => rfl

theorem prompt_feed (limit fuel : Nat) (p : Phrase) : Prompt limit (feed (σ := σ) fuel p) := by
  have hrun : Prompt limit (interpretPhrase (σ := σ) fuel p) :=
    (interpreting_prompt limit).interpretAny (prompt_execute limit fuel) (prompt_openDraft limit) p
  have hcompile (d : Draft) : Prompt limit (compilePhrase (σ := σ) d p) :=
    (compiling_prompt limit d).compileAny (prompt_modify fun _ => rfl) (fun _ _ => Nat.zero_le _) p
  constructor
  · intro s s' _ hb h
    cases hm : s.mode with
    | run => exact hrun.ok hb (feed_of_run hm ▸ h)
    | compile d => exact (hcompile d).ok hb (feed_of_compile hm ▸ h)
  · intro s s' e hb h
    cases hm : s.mode with
    | run => exact hrun.error hb (feed_of_run hm ▸ h)
    | compile d => exact (hcompile d).error hb (feed_of_compile hm ▸ h)

theorem prompt_feedAll (limit fuel : Nat) (ps : List Phrase) : Prompt limit (feedAll (σ := σ) fuel ps) := by
  have hi := interpreting_prompt (σ := σ) limit
  induction ps with
  | nil => exact hi.pure ()
  | cons p ps ih => exact hi.bind (prompt_feed limit fuel p) fun _ => ih

theorem prompt_finish (limit : Nat) : Prompt limit (finish (σ := σ)) := by
  constructor
  · intro s s' _ hb h
    cases hm : s.mode with
    | run => rw [finish_of_run hm] at h; cases h; exact hb
    | compile d => rw [finish_of_compile hm] at h; cases h
  · intro s s' e _ h
    cases hm : s.mode with
    | run => rw [finish_of_run hm] at h; cases h
    | compile d => rw [finish_of_compile hm] at h; cases h; exact ⟨_, rfl⟩

theorem prompt_reading (limit fuel : Nat) (ps : List Phrase) :
    Prompt (σ := σ) limit (feedAll fuel ps >>= fun _ => finish) :=
  (interpreting_prompt limit).bind (prompt_feedAll limit fuel ps) fun _ => prompt_finish limit

theorem feedAll_fuel (hb : s.budget = some limit) (fuel fuel' : Nat) (ps : List Phrase) :
    feedAll fuel ps s = feedAll fuel' ps s := by
  induction ps generalizing s with
  | nil => rfl
  | cons p ps ih =>
    rw [feedAll, feedAll, bind_apply, bind_apply, feed_fuel hb fuel fuel']
    cases h : feed fuel' p s with
    | error e s' => rfl
    | ok a s' => exact ih ((prompt_feed limit fuel' p).ok hb h)

/-- How many instructions a phrase runs. -/
def spentOn (fuel : Nat) (p : Phrase) (s : Engine σ) : Nat :=
  match s.called? p with
  | some entry => s.dict.countFor (s.budget.getD fuel) (s.launched entry)
  | none => 0

/-- How many instructions a text runs, up to the phrase that fails if one does. -/
def spent (fuel : Nat) : List Phrase → Engine σ → Nat
  | [], _ => 0
  | p :: ps, s =>
    s.spentOn fuel p + match feed fuel p s with
      | .ok _ s' => spent fuel ps s'
      | .error _ _ => 0

theorem spentOn_le (hb : s.budget = some limit) (fuel : Nat) (p : Phrase) : s.spentOn fuel p ≤ limit := by
  rw [spentOn, hb]
  split
  · exact Dictionary.countFor_le limit _
  · exact Nat.zero_le _

theorem spent_le (hb : s.budget = some limit) (fuel : Nat) (ps : List Phrase) :
    spent fuel ps s ≤ limit * ps.length := by
  induction ps generalizing s with
  | nil => exact Nat.zero_le _
  | cons p ps ih =>
    have hp := spentOn_le hb fuel p
    rw [spent, List.length_cons, Nat.mul_succ]
    cases h : feed fuel p s with
    | error e s' => exact Nat.le_trans hp (Nat.le_add_left ..)
    | ok a s' =>
      have hps := ih ((prompt_feed limit fuel p).ok hb h)
      simp only
      omega

end Engine

/-- Every phrase takes a character at least. -/
theorem Source.length_phrases (s : Source) : s.phrases.length ≤ s.rest.length := by
  induction hn : s.rest.length using Nat.strongRecOn generalizing s with
  | ind n ih =>
    subst hn
    rw [phrases]
    split
    · exact Nat.zero_le _
    · next t rest h =>
      have hnext := length_next_lt h
      have hread := Phrase.length_read t rest
      have := ih _ (Nat.lt_of_le_of_lt hread hnext) (Phrase.read t rest).2 rfl
      rw [List.length_cons]
      omega

namespace Engine

/-- A budget is exact. A call that runs no more instructions than it has ends as without it, and
    one that runs more is stopped after just that many. Every word of a text has the whole budget
    again, whatever was run before it, and the text as a whole comes to an end. -/
theorem step_budget_exact (s : Engine σ) (limit : Nat) :
    (s.mode = .run → ∀ addr, Budgeted limit addr s (callAddress · addr)) ∧
    ∀ label text,
      let phrases := (Source.ofText label text).phrases
      (∀ fuel ps p qs s₁ entry, phrases = ps ++ p :: qs →
        feedAll fuel ps (s.withBudget (some limit)) = .ok () s₁ → s₁.called? p = some entry →
        s₁.budget = some limit ∧ Budgeted limit entry s₁ (fun fuel => recovering (feed fuel p))) ∧
      (∀ fuel fuel', interpret fuel label text (s.withBudget (some limit)) =
        interpret fuel' label text (s.withBudget (some limit))) ∧
      (∀ fuel s', interpret fuel label text (s.withBudget (some limit)) ≠ .error .unfinished s') ∧
      ∀ fuel, spent fuel phrases (s.withBudget (some limit)) ≤ limit * text.length := by
  refine ⟨fun hm addr => budgeted_of_runCode hm limit fun _ _ => rfl, fun label text => ?_⟩
  have hb : (s.withBudget (some limit)).budget = some limit := rfl
  refine ⟨fun fuel ps p qs s₁ entry _ hps hcalled => ?_, fun fuel fuel' => ?_, fun fuel s' h => ?_,
      fun fuel => ?_⟩
  · obtain ⟨hm₁, hfeed⟩ := called?_eq_some hcalled
    exact ⟨(prompt_feedAll limit fuel ps).ok hb hps, budgeted_of_runCode hm₁ limit hfeed⟩
  · rw [interpret, interpret, recovering_eq, recovering_eq, bind_apply, bind_apply,
      feedAll_fuel hb fuel fuel']
  · obtain ⟨t, h⟩ := recovering_unfinished_iff.mp ⟨s', h⟩
    obtain ⟨f, hf⟩ := (prompt_reading limit fuel _).error hb h
    cases hf
  · have hlen := (Source.ofText label text).length_phrases
    have htext : (Source.ofText label text).rest.length = text.length := String.length_toList
    exact (spent_le hb fuel _).trans (Nat.mul_le_mul_left limit (htext ▸ hlen))

/-- The words `spin`, which never returns, and `short`, which returns with its third instruction. -/
def spinText : List Phrase :=
  let place : Location := ⟨"spin", 1, 1⟩
  [.define .colon ⟨":", place⟩ (some "spin"), .control .begin_ ⟨"begin", place⟩,
   .control .again_ ⟨"again", place⟩,
   .control .semicolon ⟨";", place⟩, .define .colon ⟨":", place⟩ (some "short"), .word ⟨"1", place⟩,
   .word ⟨"drop", place⟩, .control .semicolon ⟨";", place⟩]

def spinning : Engine Unit := stateAfter (feedAll 0 spinText) fresh

theorem feedAll_spinText : succeeds (feedAll 0 spinText) fresh = true ∧ spinning.mode = .run ∧
    spinning.dict.entry? "spin" = some 0 ∧ spinning.dict.entry? "short" = some 12 ∧
    succeeds (spinning.dict.runFor 5) (spinning.launched 0) = true ∧
    (stateAfter (spinning.dict.runFor 5) (spinning.launched 0)).ip = some 0 ∧
    succeeds (spinning.dict.runFor 3) (spinning.launched 12) = true ∧
    (stateAfter (spinning.dict.runFor 3) (spinning.launched 12)).ip = none := by
  decide +kernel

theorem step_budget_exact_spin :
    (spinning.dict.entry? "short" = some 12 ∧ spinning.dispatches 12 ≤ (3 : Nat) ∧
      callAddress 0 12 (spinning.withBudget (some 3)) =
        mapState (·.withBudget (some 3)) (callAddress 3 12 (spinning.withBudget none))) ∧
    (spinning.dict.entry? "spin" = some 0 ∧ (5 : Nat) < spinning.dispatches 0 ∧
      ∃ m, spinning.dict.Steps 5 (spinning.launched 0) m ∧ callAddress 0 0 (spinning.withBudget (some 5)) =
        .error (.fault (.budgetExceeded 5)) ((spinning.withBudget (some 5)).stopped m)) ∧
    ∀ fuel s', interpret fuel "spin" "short spin" (spinning.withBudget (some 5)) ≠ .error .unfinished s' := by
  obtain ⟨hok, hmode, hspin, hshort, hruns, hat, hends, hover⟩ := feedAll_spinText
  have hthree : spinning.dispatches 12 ≤ (3 : Nat) := Dictionary.dispatches_le_of_ip_none hends hover
  have hfive : (5 : Nat) < spinning.dispatches 0 := Dictionary.lt_dispatches_of_ip_some hruns hat
  exact ⟨⟨hshort, hthree, ((step_budget_exact spinning 3).1 hmode 12).harmless hthree 0 3 hthree⟩,
    ⟨hspin, hfive, ((step_budget_exact spinning 5).1 hmode 0).exceeded hfive 0⟩,
    ((step_budget_exact spinning 5).2 "spin" "short spin").2.2.1⟩

end Engine

end Handheld
