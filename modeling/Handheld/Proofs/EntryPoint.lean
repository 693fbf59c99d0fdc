/-
  Handheld.Proofs.EntryPoint — a console always runs the current entry word.

  A console keeps the address of its entry word between frames. What it keeps is right
  (`Current`) because only reading source changes what the name means, and reading forgets the
  address, whether it succeeds or fails. A frame runs code and leaves the dictionary as it was,
  also when it is broken off: with no definition in progress there is nothing to take back.
-/

import Handheld.Proofs.ConsoleRoom
import Handheld.Proofs.Pieces

namespace Handheld

variable {σ : Type}

/-! ## The newest word of a name -/

namespace Dictionary

/-- The newest entry of a name among those that can be seen. -/
def newest? (d : Dictionary σ) (name : String) : Option (Entry σ) := d.visible.find? (·.name.text == name)

theorem findBelow_newest (d : Dictionary σ) (name : String) (n : Nat) :
    (d.findBelow (.ofString name) n).bind d.get? =
      ((d.entries.toList.take n).reverse.filter (!·.hidden)).find? (·.name.text == name) := by
  induction n with
  | zero => rfl
  | succ n ih =>
    have hlist : d.entries.toList[n]? = d.entries[n]? := Array.getElem?_toList
    rw [findBelow, List.take_add_one, hlist]
    cases he : d.entries[n]? with
    | none => simpa using ih
    | some e =>
      have hget : d.get? n = some e := he
      have hname : (e.name == Name.ofString name) = (e.name.text == name) := by
        rw [Bool.eq_iff_iff, Name.beq_iff, beq_iff_eq]
        rfl
      rw [Option.toList_some, List.reverse_append, List.reverse_singleton, List.singleton_append,
        List.filter_cons]
      dsimp only
      cases hh : e.hidden with
      | true => simpa [hh] using ih
      | false =>
        cases hn : e.name.text == name with
        | true => simp [hname, hn, hget]
        | false => simpa [hname, hn] using ih

theorem find?_newest (d : Dictionary σ) (name : String) : (d.find? name).bind d.get? = d.newest? name := by
  have hall : d.entries.toList.take d.size = d.entries.toList := List.take_of_length_le (Nat.le_of_eq rfl)
  rw [find?, findBelow_newest, hall]
  rfl

/-- The entry that a name gives is the code of its newest word, if that is compiled. -/
theorem entry?_eq_some_iff {d : Dictionary σ} {name : String} {a : Nat} :
    d.entry? name = some a ↔ ∃ e, d.newest? name = some e ∧ e.kind = .compiled a := by
  unfold entry?
  rw [find?_newest]
  rcases d.newest? name with _ | ⟨n, kind, hidden⟩
  · simp
  · cases kind <;> simp

end Dictionary

/-! ## What calls leave -/

namespace Engine

variable {s : Engine σ}

theorem mode_recover (s : Engine σ) : s.recover.mode = .run := by
  obtain ⟨dict, machine, mode, budget⟩ := s
  cases mode <;> rfl

/-- However it ends, reading a text leaves no definition in progress. -/
theorem mode_interpret (fuel : Nat) (label text : String) (s : Engine σ) :
    (stateAfter (interpret fuel label text) s).mode = .run := by
  cases h : interpret fuel label text s with
  | ok _ s' =>
    rw [stateAfter_ok h]
    exact (interpret_ok_iff.mp h).2
  | error e s' =>
    rw [stateAfter_error h]
    rw [interpret, recovering_eq] at h
    split at h <;> cases h
    exact mode_recover _

/-- Running code leaves the dictionary and the mode as they were. -/
theorem stateAfter_callAddress (fuel a : Nat) (hm : s.mode = .run) :
    ∃ m, stateAfter (callAddress fuel a) s = { s with machine := m } := by
  have hrecover (m : Machine σ) :
      ({ s with machine := m } : Engine σ).recover = { s with machine := m.reset } := by
    have hdiscard := discardDraft_of_run (s := { s with machine := m }) hm
    rw [recover, hdiscard]
  unfold stateAfter
  rw [callAddress, recovering_eq, runCode_launched]
  rcases s.dict.runFor (s.budget.getD fuel) (s.launched a) with ⟨_, m⟩ | ⟨f, m⟩
  · by_cases hip : m.ip.isSome = true
    · dsimp only
      rw [if_pos hip]
      exact ⟨m.reset, hrecover m⟩
    · dsimp only
      rw [if_neg hip]
      exact ⟨m, rfl⟩
  · exact ⟨m.reset, hrecover m⟩

end Engine

namespace Console

/-! ## Commands -/

/-- What the owner of a console can do with it. -/
inductive Command where
  | interpret (fuel : Nat) (label text : String)
  | tick (fuel : Nat)
  /-- Holds these buttons down from now on. -/
  | hold (mask : Cell)

def Command.act : Command → Op Unit
  | .interpret fuel label text => Console.interpret fuel label text
  | .tick fuel => Console.tick fuel
  | .hold mask => modify (·.modifyHost fun r => { r with buttons := mask })

/-- The consoles that commands lead to from one that has been booted or loaded. -/
inductive Reached : Console → Prop
  | boot {host : Recorder} {settings : ConsoleSettings} {limits : Limits} {c : Console} :
      Console.boot host settings limits = .ok c → Reached c
  | load {fuel : Nat} {host : Recorder} {label source : String} {settings : ConsoleSettings}
      {limits : Limits} {c : Console} :
      Console.load fuel host label source settings limits = .ok c → Reached c
  | command {c : Console} (k : Command) : Reached c → Reached (stateAfter k.act c)

/-- No definition is in progress, and the address that is kept is that of the entry word. -/
structure Current (c : Console) : Prop where
  mode : c.engine.mode = .run
  entry : ∀ a, c.entry = some a → c.engine.dict.entry? c.entryPoint = some a

variable {c : Console}

theorem stateAfter_after (act : Op Unit) (f : Console → Console) (c : Console) :
    stateAfter (after act f) c = f (stateAfter act c) := by
  unfold stateAfter after
  cases act c <;> rfl

theorem stateAfter_onEngine (act : Session Recorder Unit) (c : Console) :
    stateAfter (onEngine act) c = { c with engine := stateAfter act c.engine } := by
  obtain ⟨engine, entryPoint, entry, ticks⟩ := c
  unfold stateAfter onEngine
  dsimp only
  cases act engine <;> rfl

theorem stateAfter_interpret (fuel : Nat) (label text : String) (c : Console) :
    (stateAfter (interpret fuel label text) c).entry = none ∧
      (stateAfter (interpret fuel label text) c).engine.mode = .run := by
  rw [interpret, stateAfter_after, stateAfter_onEngine]
  exact ⟨rfl, Engine.mode_interpret fuel label text c.engine⟩

theorem resolve_of_some {a : Nat} (h : c.engine.dict.entry? c.entryPoint = some a) :
    resolve c = .ok a { c with entry := some a } := by
  rw [resolve, bind_of_ok (get_apply c), h]
  rfl

theorem resolve_of_none (h : c.engine.dict.entry? c.entryPoint = none) :
    resolve c = .error (.fault (.missingEntryPoint c.entryPoint)) c := by
  rw [resolve, bind_of_ok (get_apply c), h]
  rfl

/-! ## Frames -/

/-- Runs a frame from the entry word at this address. -/
def frame (fuel a : Nat) : Op Unit :=
  after (onEngine (Engine.callAddress fuel a)) fun c => { c.flush with ticks := c.ticks + 1 }

theorem ticks_frame (fuel a : Nat) (c : Console) : (stateAfter (frame fuel a) c).ticks = c.ticks + 1 := by
  rw [frame, stateAfter_after, stateAfter_onEngine]

/-- With an entry word a frame runs it. -/
theorem tick_of_some (hc : c.Current) (fuel : Nat) {a : Nat}
    (h : c.engine.dict.entry? c.entryPoint = some a) :
    tick fuel c = frame fuel a { c with entry := some a } := by
  rw [tick, bind_of_ok (get_apply c)]
  cases he : c.entry with
  | none =>
    dsimp only
    rw [bind_of_ok (resolve_of_some h)]
    rfl
  | some b =>
    have hb := hc.entry b he
    rw [h] at hb
    cases hb
    have hsame : ({ c with entry := some a } : Console) = c := by rw [← he]
    rw [hsame]
    rfl

/-- Without one there is no frame. -/
theorem tick_of_none (hc : c.Current) (fuel : Nat) (h : c.engine.dict.entry? c.entryPoint = none) :
    tick fuel c = .error (.fault (.missingEntryPoint c.entryPoint)) c := by
  rw [tick, bind_of_ok (get_apply c)]
  cases he : c.entry with
  | none =>
    dsimp only
    rw [bind_of_error (resolve_of_none h)]
  | some b =>
    have hb := hc.entry b he
    rw [h] at hb
    cases hb

/-- A frame that ran was counted, so it is not one that did not run. -/
theorem tick_eq_error_iff (hc : c.Current) (fuel : Nat) :
    tick fuel c = .error (.fault (.missingEntryPoint c.entryPoint)) c ↔
    c.engine.dict.entry? c.entryPoint = none := by
  refine ⟨fun h => ?_, tick_of_none hc fuel⟩
  cases he : c.engine.dict.entry? c.entryPoint with
  | none => rfl
  | some a =>
    rw [tick_of_some hc fuel he] at h
    have hticks := ticks_frame fuel a { c with entry := some a }
    rw [stateAfter_error h] at hticks
    dsimp only at hticks
    omega

/-! ## The kept address -/

theorem Current.frame (hc : c.Current) (fuel : Nat) {a : Nat}
    (h : c.engine.dict.entry? c.entryPoint = some a) :
    (stateAfter (frame fuel a) { c with entry := some a }).Current := by
  obtain ⟨m, hm⟩ := Engine.stateAfter_callAddress (s := c.engine) fuel a hc.mode
  rw [Console.frame, stateAfter_after, stateAfter_onEngine, hm]
  refine ⟨hc.mode, fun b hb => ?_⟩
  cases hb
  exact h

theorem Current.command (hc : c.Current) (k : Command) : (stateAfter k.act c).Current := by
  cases k with
  | interpret fuel label text =>
    obtain ⟨hentry, hmode⟩ := stateAfter_interpret fuel label text c
    refine ⟨hmode, fun a ha => ?_⟩
    rw [Command.act, hentry] at ha
    cases ha
  | tick fuel =>
    cases he : c.engine.dict.entry? c.entryPoint with
    | none =>
      rw [Command.act, stateAfter_error (tick_of_none hc fuel he)]
      exact hc
    | some a =>
      have hframe := hc.frame fuel he
      unfold stateAfter at hframe ⊢
      rw [Command.act, tick_of_some hc fuel he]
      exact hframe
  | hold mask => exact ⟨hc.mode, hc.entry⟩

theorem Reached.current (h : Reached c) : c.Current := by
  induction h with
  | boot h =>
    unfold Console.boot at h
    split at h <;> cases h
    next hread => exact ⟨(Engine.interpret_ok_iff.mp hread).2, fun a ha => by cases ha⟩
  | @load fuel host label source settings limits c h =>
    unfold Console.load at h
    split at h
    · cases h
    · next c₁ hboot =>
      split at h <;> cases h
      next hread =>
        obtain ⟨⟨⟩, c₂, hinterpret, hresolve⟩ := bind_ok_iff.mp hread
        obtain ⟨a, hresolve⟩ := discard_ok_iff.mp hresolve
        have hmode := (stateAfter_interpret fuel label source c₁).2
        rw [stateAfter_ok hinterpret] at hmode
        cases he : c₂.engine.dict.entry? c₂.entryPoint with
        | none => rw [resolve_of_none he] at hresolve; cases hresolve
        | some b =>
          rw [resolve_of_some he] at hresolve
          cases hresolve
          exact ⟨hmode, fun a ha => by cases ha; exact he⟩
  | command k _ ih => exact ih.command k

/-- Whatever was read, run or held down, the address a console keeps is that of its entry word now.
    So a frame runs the newest word of that name; and exactly if there is none, or it is not compiled,
    a frame fails for want of it and nothing at all has changed. -/
theorem tick_runs_current_entry (h : Reached c) :
    (∀ a, c.entry = some a → c.engine.dict.entry? c.entryPoint = some a) ∧
    ∀ fuel, (∀ e a, c.engine.dict.newest? c.entryPoint = some e → e.kind = .compiled a →
        tick fuel c = frame fuel a { c with entry := some a }) ∧
      ((∀ e a, c.engine.dict.newest? c.entryPoint = some e → e.kind ≠ .compiled a) ↔
        tick fuel c = .error (.fault (.missingEntryPoint c.entryPoint)) c) := by
  have hc := h.current
  refine ⟨hc.entry, fun fuel =>
      ⟨fun e a he hk => tick_of_some hc fuel (Dictionary.entry?_eq_some_iff.mpr ⟨e, he, hk⟩), ?_⟩⟩
  rw [tick_eq_error_iff hc, Option.eq_none_iff_forall_ne_some]
  constructor
  · intro hnone a ha
    obtain ⟨e, he, hk⟩ := Dictionary.entry?_eq_some_iff.mp ha
    exact hnone e a he hk
  · intro hnone e a he hk
    exact hnone a (Dictionary.entry?_eq_some_iff.mpr ⟨e, he, hk⟩)

/-- A console before a game is read. -/
def blinkBooted : Console where
  engine := { bare {} (.withButtons 0) with
    dict := (bare {} (.withButtons 0)).dict.withConstants (ConsoleSettings.constants {}) }
  entryPoint := "draw_frame"
  entry := none
  ticks := 0

/-- After a frame the entry word gets a new definition, and then one that breaks off half-way. -/
def blinkCommands : List Command :=
  [.interpret 0 "blink" ": draw_frame 1 cls ;", .tick 10, .interpret 0 "blink" ": draw_frame 2 cls ;",
    .interpret 0 "blink" ": draw_frame 3 cls nope ;"]

def blinking : Console := blinkCommands.foldl (fun c k => stateAfter k.act c) blinkBooted

theorem tick_runs_current_entry_blink :
    Reached blinking ∧ blinking.engine.dict.entry? blinking.entryPoint = some 16 ∧
    tick 10 blinking = frame 10 16 { blinking with entry := some 16 } ∧
    (stateAfter (tick 10) blinking).host.commands = #[.clear 1, .clear 2] := by
  have hboot : boot (.withButtons 0) {} {} = .ok blinkBooted := boot_eq _ _ (by decide)
  have hreached : Reached blinking :=
    List.foldlRecOn blinkCommands _ (.boot hboot) fun _ hc k _ => .command k hc
  have hevaluates : blinking.engine.dict.entry? blinking.entryPoint = some 16 ∧
      (stateAfter (tick 10) blinking).host.commands = #[.clear 1, .clear 2] := by
    decide +kernel
  obtain ⟨hentry, hcommands⟩ := hevaluates
  obtain ⟨e, he, hk⟩ := Dictionary.entry?_eq_some_iff.mp hentry
  exact ⟨hreached, hentry, ((tick_runs_current_entry hreached).2 10).1 e 16 he hk, hcommands⟩

end Console

end Handheld
