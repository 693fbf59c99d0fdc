/-
  Handheld.Proofs.Delivery — what a program prints reaches the host once and in order.

  A call runs with an empty output and hands over what was printed when it ends, whether it
  succeeds or fails. In between no word tells the host anything of what was printed, and none
  asks what it was told before (`Kind.Discreet`). So after every call the output is empty again
  and the host has heard exactly the texts of the calls, one after the other (`Told`). A tool
  that empties the recorder after every frame therefore prints what would have piled up in it.
-/

import Handheld.Proofs.Commuting
import Handheld.Proofs.EntryPoint
import Handheld.Proofs.Upkeep
import Handheld.Tool.Basic

namespace Handheld

/-! ## Words that tell the host nothing and ask it nothing -/

/-- The recorder, had it drawn and heard all that before. -/
def Recorder.following (r past : Recorder) : Recorder :=
  { r with commands := past.commands ++ r.commands, output := past.output ++ r.output }

namespace Machine

/-- The host has heard nothing more, and the output has the size it had. -/
structure Unheard (m m' : Machine Recorder) : Prop where
  capacity : m'.output.capacity = m.output.capacity
  heard : m'.host.output = m.host.output

theorem unheard_heedless : Heedless Unheard where
  refl _ := ⟨rfl, rfl⟩
  trans h g := ⟨g.capacity.trans h.capacity, g.heard.trans h.heard⟩
  inside _ _ _ _ _ _ := ⟨rfl, rfl⟩
  output _ _ h := ⟨h.capacity, rfl⟩

def following (past : Recorder) (m : Machine Recorder) : Machine Recorder :=
  { m with host := m.host.following past }

theorem outlying_following : Outlying following where
  data _ _ _ := rfl
  ret _ _ _ := rfl
  memory _ _ _ := rfl
  ip _ _ _ := rfl
  base _ _ _ := rfl

end Machine

/-- A word that tells the host nothing of what is printed, and does the same whatever the host
    was told before. -/
structure Kind.Discreet (k : Kind Recorder) : Prop where
  unheard : Keeps Machine.Unheard k.perform
  past : Act.Commutes Machine.following k.perform

theorem upkeep_discreet : Upkeep Kind.Discreet Machine.Unheard where
  toHeedless := Machine.unheard_heedless
  perform h := h.unheard
  compiled entry := ⟨Machine.unheard_heedless.call entry, .call Machine.outlying_following entry⟩
  constant v := ⟨Machine.unheard_heedless.partWise.closed.push v, .onData (fun _ _ _ => rfl) _⟩

/-- A word of the host that tells it nothing and asks it nothing. -/
structure Native.Discreet (x : EStateM Fault (Surface Recorder) (Option Cell)) : Prop where
  unheard (s : Surface Recorder) :
    (stateAfter x s).output.capacity = s.output.capacity ∧ (stateAfter x s).host.output = s.host.output
  past (past : Recorder) (s : Surface Recorder) :
    x { s with host := s.host.following past } =
      mapState (fun s => { s with host := s.host.following past }) (x s)

namespace Recorder

theorem recording_discreet (d : Drawing) : Native.Discreet (recording d) := by
  refine ⟨fun _ => ⟨rfl, rfl⟩, fun past s => ?_⟩
  have hpush : (past.commands ++ s.host.commands).push d = past.commands ++ s.host.commands.push d :=
    Array.push_append ..
  simp only [recording, record, following, mapState, hpush]

theorem write_discreet (text : String) : Native.Discreet (Native.write text >>= fun _ => pure none) := by
  refine ⟨fun s => ?_, fun past s => ?_⟩
  · unfold stateAfter
    by_cases h : s.output.text.utf8ByteSize + text.utf8ByteSize ≤ s.output.capacity
    · rw [bind_of_ok (Native.write_of_fits h)]
      exact ⟨rfl, rfl⟩
    · rw [bind_of_error (Native.write_of_full h)]
      exact ⟨rfl, rfl⟩
  · by_cases h : s.output.text.utf8ByteSize + text.utf8ByteSize ≤ s.output.capacity
    · rw [bind_of_ok (Native.write_of_fits h),
        bind_of_ok (show Native.write text { s with host := s.host.following past } = _
          from Native.write_of_fits h)]
      rfl
    · rw [bind_of_error (Native.write_of_full h),
        bind_of_error (show Native.write text { s with host := s.host.following past } = _
          from Native.write_of_full h)]
      rfl

theorem words_discreet : ∀ w ∈ words, ∀ args memory, Native.Discreet (w.2.2 args memory) :=
  words_induction ⟨fun _ => ⟨rfl, rfl⟩, fun _ _ => rfl⟩ ⟨fun _ => ⟨rfl, rfl⟩,
      fun _ _ => rfl⟩ recording_discreet write_discreet
    fun _ => ⟨fun _ => ⟨rfl, rfl⟩, fun _ _ => rfl⟩

end Recorder

theorem Kind.Discreet.native (arity : Nat) {f : Native Recorder}
    (hf : ∀ args memory, Native.Discreet (f args memory)) : Kind.Discreet (.native arity f) where
  unheard := by
    refine Machine.keeps_callNative Machine.unheard_heedless.partWise.toShallow (fun m args => ?_) arity
    obtain ⟨hcapacity, hheard⟩ := (hf args m.memory).unheard ⟨m.host, m.output⟩
    rw [Machine.stateAfter_onSurface]
    exact ⟨hcapacity, hheard⟩
  past := by
    refine .callNative Machine.outlying_following arity fun args past m => ?_
    have hpast := (hf args m.memory).past past ⟨m.host, m.output⟩
    rw [Machine.onSurface_eq, Machine.onSurface_eq, show Machine.following past m =
        { m with host := m.host.following past } from rfl]
    dsimp only at hpast ⊢
    rw [hpast]
    cases f args m.memory ⟨m.host, m.output⟩ <;> rfl

theorem Console.bare_discreet (limits : Limits) (host : Recorder) :
    (bare limits host).dict.All Kind.Discreet :=
  bare_all (fun p => ⟨Machine.unheard_heedless.run p, .run Machine.outlying_following (fun _ _ _ => rfl) p⟩)
    (fun w hw => .native w.2.1 (Recorder.words_discreet w hw)) limits host

/-! ## One call -/

/-- What a call prints into an empty output of that size. -/
def Engine.prints {σ : Type} (act : Session σ Unit) (bytes : Nat) (s : Engine σ) : String :=
  (stateAfter act { s with machine := { s.machine with output := .empty bytes } }).printed

theorem Engine.prints_eq {σ : Type} {s : Engine σ} {bytes : Nat} (h : s.machine.output = .empty bytes)
    (act : Session σ Unit) : prints act bytes s = (stateAfter act s).printed := by
  rw [prints, ← h]

namespace Console

variable {limits : Limits} {host : Recorder} {c c' : Console}

/-- The console after a call on its engine. -/
def called (act : Session Recorder Unit) (c : Console) : Console :=
  flush { c with engine := stateAfter act c.engine }

/-- The other console has handed the text over to the host, and has nothing more to hand over. -/
structure Delivers (limits : Limits) (c : Console) (text : String) (c' : Console) : Prop where
  words : c'.engine.dict.All Kind.Discreet
  output : c'.engine.machine.output = .empty limits.outputBytes
  heard : c'.host.output = c.host.output ++ text

/-- A console between calls: there is nothing to hand over. -/
structure Flushed (limits : Limits) (c : Console) : Prop extends Current c where
  words : c.engine.dict.All Kind.Discreet
  output : c.engine.machine.output = .empty limits.outputBytes

theorem Flushed.called (hc : c.Flushed limits) {act : Session Recorder Unit}
    (hact : Keeps (Engine.Upholds Kind.Discreet Machine.Unheard) act) :
    c.Delivers limits (Engine.prints act limits.outputBytes c.engine) (c.called act) := by
  obtain ⟨hwords, hunheard⟩ := hact c.engine hc.words
  have hcapacity : (stateAfter act c.engine).machine.output.capacity = limits.outputBytes := by
    rw [hunheard.capacity, hc.output]
    rfl
  refine ⟨hwords, congrArg (Output.mk · "") hcapacity, ?_⟩
  rw [Engine.prints_eq hc.output, Console.host, Console.host, ← hunheard.heard]
  rfl

/-- What the engine does for a command. -/
def Command.work (c : Console) : Command → Session Recorder Unit
  | .interpret fuel label text => Engine.interpret fuel label text
  | .tick fuel =>
    match c.engine.dict.entry? c.entryPoint with
    | some a => Engine.callAddress fuel a
    | none => pure ()
  | .hold _ => pure ()

/-- What the engine prints for a command, into an empty output. -/
def Command.text (limits : Limits) (c : Console) (k : Command) : String :=
  Engine.prints (k.work c) limits.outputBytes c.engine

theorem Flushed.idle (hc : c.Flushed limits) :
    c.Delivers limits (Engine.prints (pure ()) limits.outputBytes c.engine) c := by
  refine ⟨hc.words, hc.output, ?_⟩
  rw [Engine.prints_eq hc.output, stateAfter, Engine.printed]
  simp [hc.output, Output.empty]

theorem Flushed.command (hc : c.Flushed limits) (k : Command) :
    c.Delivers limits (k.text limits c) (stateAfter k.act c) := by
  cases k with
  | interpret fuel label text =>
    have hcalled := hc.called (Engine.upholds_interpret upkeep_discreet fuel label text)
    rw [Command.act, interpret, stateAfter_after, stateAfter_onEngine]
    exact ⟨hcalled.words, hcalled.output, hcalled.heard⟩
  | tick fuel =>
    rw [Command.text, Command.work, Command.act]
    cases he : c.engine.dict.entry? c.entryPoint with
    | none =>
      rw [stateAfter_error (tick_of_none hc.toCurrent fuel he)]
      exact hc.idle
    | some a =>
      have hcalled := hc.called (Engine.upholds_callAddress upkeep_discreet fuel a)
      have htick : stateAfter (tick fuel) c = stateAfter (frame fuel a) { c with entry := some a } := by
        rw [stateAfter, stateAfter, tick_of_some hc.toCurrent fuel he]
      rw [htick, frame, stateAfter_after, stateAfter_onEngine]
      exact ⟨hcalled.words, hcalled.output, hcalled.heard⟩
  | hold mask => exact ⟨hc.words, hc.output, hc.idle.heard⟩

theorem Flushed.next (hc : c.Flushed limits) (k : Command) : (stateAfter k.act c).Flushed limits :=
  ⟨hc.toCurrent.command k, (hc.command k).words, (hc.command k).output⟩

/-! ## Booting and loading -/

def bootText (host : Recorder) (settings : ConsoleSettings) (limits : Limits) : String :=
  Engine.prints (Engine.interpret 0 preludeLabel settings.preludeText) limits.outputBytes (bare limits host)

/-- What is printed while a program is loaded: the prelude's text and then the program's. -/
def loadTexts (fuel : Nat) (host : Recorder) (label source : String) (settings : ConsoleSettings)
    (limits : Limits) : List String :=
  match boot host settings limits with
  | .error _ => [bootText host settings limits]
  | .ok c => [bootText host settings limits, (Command.interpret fuel label source).text limits c]

variable {settings : ConsoleSettings}

theorem boot_delivers (host : Recorder) (settings : ConsoleSettings) (limits : Limits) :
    (called (Engine.interpret 0 preludeLabel settings.preludeText) ⟨bare limits host,
      settings.entryPoint, none, 0⟩).host.output =
      host.output ++ bootText host settings limits := by
  have hbare : Flushed limits ⟨bare limits host, settings.entryPoint, none, 0⟩ :=
    ⟨⟨rfl, fun _ h => by cases h⟩, bare_discreet limits host, rfl⟩
  exact (hbare.called (Engine.upholds_interpret upkeep_discreet 0 preludeLabel settings.preludeText)).heard

theorem boot_error {failure : LoadFailure} (h : boot host settings limits = .error failure) :
    failure.host.output = host.output ++ bootText host settings limits := by
  rw [← boot_delivers, called]
  unfold boot at h
  split at h <;> cases h
  next he => rw [stateAfter_error he]

/-- A prelude that goes well has printed nothing: it makes constants. -/
theorem boot_ok (h : boot host settings limits = .ok c) :
    c.Flushed limits ∧ c.host.output = host.output ++ bootText host settings limits := by
  have hcurrent := (Reached.boot h).current
  -- with one more cell on the data stack it boots too, and alike
  have hroom : limits.AtMost { limits with dataCells := limits.dataCells + 1 } :=
    ⟨Nat.le_succ _, Nat.le_refl _, Nat.le_refl _, Nat.le_refl _, rfl⟩
  obtain ⟨c', hboot, hsame⟩ := boot_roomier hroom h
  rw [boot_eq host settings (Nat.succ_pos limits.dataCells)] at hboot
  obtain rfl := Except.ok.inj hboot
  have htext : c.engine.printed = "" := hsame.engine.machine.output.text.symm
  have hhost : host = c.host := hsame.engine.machine.host
  unfold boot at h
  split at h <;> cases h
  next engine he =>
    obtain ⟨hwords, hunheard⟩ :=
      Engine.upholds_interpret upkeep_discreet 0 preludeLabel settings.preludeText (bare limits host)
          (bare_discreet limits host)
    rw [stateAfter_ok he] at hwords hunheard
    have houtput : engine.machine.output = .empty limits.outputBytes := by
      rw [show engine.machine.output = ⟨engine.machine.output.capacity, engine.printed⟩ from rfl,
        hunheard.capacity, htext]
      rfl
    refine ⟨⟨hcurrent, hwords, houtput⟩, ?_⟩
    rw [bootText, Engine.prints_eq rfl, stateAfter_ok he, htext, String.append_empty, ← hhost]

/-- Whether the program or its entry word is at fault, the text was read and its output handed over. -/
theorem Flushed.reading (hc : c.Flushed limits) (fuel : Nat) (label source : String) :
    c.Delivers limits ((Command.interpret fuel label source).text limits c)
      (stateAfter (do interpret fuel label source; discard resolve) c) := by
  have hresolve (t : Console) : (stateAfter (discard resolve) t).engine = t.engine := by
    unfold stateAfter
    cases hentry : t.engine.dict.entry? t.entryPoint with
    | none => rw [discard_eq, bind_of_error (resolve_of_none hentry)]
    | some a => rw [discard_eq, bind_of_ok (resolve_of_some hentry)]; rfl
  have hengine : (stateAfter (do interpret fuel label source; discard resolve) c).engine =
      (stateAfter (interpret fuel label source) c).engine := by
    rcases stateAfter_bind (interpret fuel label source) (fun _ => discard resolve) c with h | ⟨_, h⟩
    · rw [h]
    · rw [h, hresolve]
  obtain ⟨hwords, houtput, hheard⟩ := hc.command (.interpret fuel label source)
  rw [Command.act] at hwords houtput hheard
  rw [Console.host] at hheard
  exact ⟨by rw [hengine]; exact hwords,
      by rw [hengine]; exact houtput, by rw [Console.host, hengine]; exact hheard⟩

theorem load_error {fuel : Nat} {label source : String} {failure : LoadFailure}
    (h : load fuel host label source settings limits = .error failure) :
    failure.host.output = host.output ++ String.join (loadTexts fuel host label source settings limits) := by
  unfold load at h
  rw [loadTexts]
  cases hboot : boot host settings limits with
  | error f =>
    rw [hboot] at h
    cases h
    rw [boot_error hboot]
    simp
  | ok c =>
    rw [hboot] at h
    dsimp only at h ⊢
    obtain ⟨hc, hbooted⟩ := boot_ok hboot
    have hheard := (hc.reading fuel label source).heard
    split at h <;> cases h
    next he =>
      rw [stateAfter_error he] at hheard
      rw [hheard, hbooted]
      simp [String.append_assoc]

theorem load_ok {fuel : Nat} {label source : String}
    (h : load fuel host label source settings limits = .ok c) :
    c.Flushed limits ∧
    c.host.output = host.output ++ String.join (loadTexts fuel host label source settings limits) := by
  have hcurrent := (Reached.load h).current
  unfold load at h
  rw [loadTexts]
  cases hboot : boot host settings limits with
  | error f => rw [hboot] at h; cases h
  | ok c₁ =>
    rw [hboot] at h
    dsimp only at h ⊢
    obtain ⟨hc₁, hbooted⟩ := boot_ok hboot
    obtain ⟨hwords, houtput, hheard⟩ := hc₁.reading fuel label source
    split at h <;> cases h
    next he =>
      rw [stateAfter_ok he] at hwords houtput hheard
      refine ⟨⟨hcurrent, hwords, houtput⟩, ?_⟩
      rw [hheard, hbooted]
      simp [String.append_assoc]

/-! ## Any number of calls -/

/-- The consoles that calls lead to, with the texts that each call printed. -/
inductive Told (limits : Limits) (host : Recorder) : List String → Console → Prop
  | boot {settings : ConsoleSettings} {c : Console} :
      Console.boot host settings limits = .ok c → Told limits host [bootText host settings limits] c
  | load {fuel : Nat} {label source : String} {settings : ConsoleSettings} {c : Console} :
      Console.load fuel host label source settings limits = .ok c →
      Told limits host (loadTexts fuel host label source settings limits) c
  | command {texts : List String} {c : Console} (k : Command) :
      Told limits host texts c → Told limits host (texts ++ [k.text limits c]) (stateAfter k.act c)

theorem Told.flushed {texts : List String} (h : Told limits host texts c) :
    c.Flushed limits ∧ c.host.output = host.output ++ String.join texts := by
  induction h with
  | boot h =>
    obtain ⟨hc, hheard⟩ := boot_ok h
    exact ⟨hc, by rw [hheard]; simp⟩
  | load h => exact load_ok h
  | command k _ ih =>
    obtain ⟨hc, hheard⟩ := ih
    refine ⟨hc.next k, ?_⟩
    rw [(hc.command k).heard, hheard]
    simp [String.append_assoc]

end Console

/-! ## What was heard before makes no difference -/

namespace Engine

variable {s : Engine Recorder}

def following (past : Recorder) (s : Engine Recorder) : Engine Recorder :=
  { s with machine := s.machine.following past }

theorem recover_following (past : Recorder) (s : Engine Recorder) :
    (s.following past).recover = s.recover.following past := by
  obtain ⟨dict, machine, mode, budget⟩ := s
  cases mode <;> rfl

theorem runCode_following (hd : s.dict.All Kind.Discreet) (past : Recorder) (fuel a : Nat) :
    runCode fuel a (s.following past) = mapState (·.following past) (runCode fuel a s) := by
  have hperform (xt : Nat) : Act.Commutes Machine.following (s.dict.perform xt) := by
    unfold Dictionary.perform
    split
    · next e he => exact (hd xt e he).past
    · exact .throw _
  have hrun := (Machine.outlying_following.start a).bind
    (fun _ => Dictionary.commutes_runFor Machine.outlying_following hperform (s.budget.getD fuel)) past
      s.machine
  rw [runCode_eq, runCode_eq]
  dsimp only [following]
  rw [hrun]
  rcases (Machine.start a >>= fun _ => s.dict.runFor (s.budget.getD fuel)) s.machine with ⟨_, m⟩ | ⟨f, m⟩
  · dsimp only [mapState]
    rw [Machine.outlying_following.ip_eq]
    split <;> rfl
  · rfl

theorem callAddress_following (hd : s.dict.All Kind.Discreet) (past : Recorder) (fuel a : Nat) :
    callAddress fuel a (s.following past) = mapState (·.following past) (callAddress fuel a s) := by
  rw [callAddress, recovering_eq, recovering_eq, runCode_following hd]
  cases runCode fuel a s with
  | ok _ t => rfl
  | error e t =>
    dsimp only [mapState]
    rw [recover_following]

end Engine

namespace Console

variable {limits : Limits} {c : Console}

def following (past : Recorder) (c : Console) : Console := c.modifyHost (·.following past)

theorem flush_following (past : Recorder) (c : Console) :
    (c.following past).flush = c.flush.following past := by
  simp only [flush, following, modifyHost, Engine.clearOutput, Engine.printed, Recorder.hear,
    Recorder.following, String.append_assoc]

theorem frame_following (hc : c.engine.dict.All Kind.Discreet) (past : Recorder) (fuel a : Nat) :
    frame fuel a (c.following past) = mapState (·.following past) (frame fuel a c) := by
  have hcall := Engine.callAddress_following hc past fuel a
  obtain ⟨engine, entryPoint, entry, ticks⟩ := c
  have hengine : following past ⟨engine, entryPoint, entry, ticks⟩ =
      ⟨engine.following past, entryPoint, entry, ticks⟩ := rfl
  rw [hengine, frame, after, after, onEngine, onEngine, hcall]
  cases Engine.callAddress fuel a engine with
  | ok _ t =>
    have hflush := flush_following past ⟨t, entryPoint, entry, ticks⟩
    exact congrArg (fun c => EStateM.Result.ok () { c with ticks := ticks + 1 }) hflush
  | error e t =>
    have hflush := flush_following past ⟨t, entryPoint, entry, ticks⟩
    exact congrArg (fun c => EStateM.Result.error e { c with ticks := ticks + 1 }) hflush

/-- A frame goes the same way whatever the host was told before. -/
theorem tick_following (hc : c.Flushed limits) (past : Recorder) (fuel : Nat) :
    tick fuel (c.following past) = mapState (·.following past) (tick fuel c) := by
  have hcurrent : (c.following past).Current := ⟨hc.mode, hc.entry⟩
  cases he : c.engine.dict.entry? c.entryPoint with
  | none =>
    rw [tick_of_none hc.toCurrent fuel he, tick_of_none hcurrent fuel he]
    rfl
  | some a =>
    rw [tick_of_some hc.toCurrent fuel he, tick_of_some hcurrent fuel he]
    exact frame_following (c := { c with entry := some a }) hc.words past fuel a

theorem text_following (hc : c.Flushed limits) (past : Recorder) (fuel : Nat) :
    (Command.tick fuel).text limits (c.following past) = (Command.tick fuel).text limits c := by
  rw [Command.text, Command.text, Command.work, Command.work]
  rw [show (c.following past).engine.dict.entry? (c.following past).entryPoint =
      c.engine.dict.entry? c.entryPoint from rfl]
  cases c.engine.dict.entry? c.entryPoint with
  | none => rfl
  | some a =>
    have hcall := Engine.callAddress_following hc.words past fuel a
    dsimp only
    rw [Engine.prints_eq hc.output, Engine.prints_eq (s := (c.following past).engine) hc.output,
      stateAfter, stateAfter]
    rw [show (c.following past).engine = c.engine.following past from rfl, hcall]
    cases Engine.callAddress fuel a c.engine <;> rfl

/-- The texts of so many frames, up to the first that fails. -/
def frameTexts (limits : Limits) (fuel : Nat) : Nat → Console → List String
  | 0, _ => []
  | n + 1, c =>
    (Command.tick fuel).text limits c ::
      match tick fuel c with
      | .ok _ c => frameTexts limits fuel n c
      | .error _ _ => []

theorem frameTexts_following (hc : c.Flushed limits) (past : Recorder) (fuel n : Nat) :
    frameTexts limits fuel n (c.following past) = frameTexts limits fuel n c := by
  induction n generalizing c with
  | zero => rfl
  | succ n ih =>
    have hnext := hc.next (.tick fuel)
    rw [frameTexts, frameTexts, text_following hc, tick_following hc]
    rw [Command.act, stateAfter] at hnext
    cases ht : tick fuel c with
    | ok _ c' =>
      rw [ht] at hnext
      exact congrArg _ (ih hnext)
    | error e c' => rfl

end Console

namespace Tool

variable {limits : Limits} {c : Console}

/-- The recorder emptied. -/
def drained (c : Console) : Console := c.modifyHost fun h => { h with commands := #[], output := "" }

theorem drain_false (c : Console) : drain false c = (c.host.output, drained c) := by
  simp [drain, drained]

theorem following_drained (c : Console) : (drained c).following c.host = c := by
  simp [Console.following, drained, Console.modifyHost, Recorder.following, Console.host]

theorem flushed_drained (hc : c.Flushed limits) : (drained c).Flushed limits :=
  ⟨⟨hc.mode, hc.entry⟩, hc.words, hc.output⟩

theorem stdout_frames (hc : c.Flushed limits) (hempty : c.host.output = "") (fuel n : Nat) (stdout : String) :
    (frames fuel false n stdout c).stdout = stdout ++ String.join (Console.frameTexts limits fuel n c) := by
  induction n generalizing c stdout with
  | zero => simp [frames, Console.frameTexts]
  | succ n ih =>
    have hnext := hc.next (.tick fuel)
    have hheard := (hc.command (.tick fuel)).heard
    rw [frames, frame, Console.frameTexts]
    rw [Console.Command.act, stateAfter] at hnext hheard
    cases ht : Console.tick fuel c with
    | ok _ c' =>
      rw [ht] at hnext hheard
      dsimp only at hheard ⊢
      rw [drain_false]
      dsimp only
      rw [ih (flushed_drained hnext) rfl, hheard, hempty]
      have hsame := Console.frameTexts_following (flushed_drained hnext) c'.host fuel n
      rw [following_drained] at hsame
      rw [hsame]
      simp [String.append_assoc]
    | error e c' =>
      rw [ht] at hheard
      dsimp only at hheard ⊢
      rw [drain_false]
      simp [Transcript.failure, hheard, hempty]

/-- The texts of a cart that is played: those of loading it, and of the frames up to the first that fails. -/
def runTexts (fuel : Nat) (settings : Settings) (path text : String) (options : RunOptions) : List String :=
  match Cart.parseOrSource text with
  | .error _ => []
  | .ok cart =>
    Console.loadTexts fuel (.withButtons options.buttons) (fileName path) cart.source settings.console
        settings.engine ++
      match load fuel settings path cart options.buttons with
      | .error _ => []
      | .ok c => Console.frameTexts settings.engine fuel options.ticks c

theorem run_of_load {fuel : Nat} {settings : Settings} {path text : String} {options : RunOptions}
    {cart : Cart} (h : options.dump = false) (hparse : Cart.parseOrSource text = .ok cart)
    (hload : load fuel settings path cart options.buttons = .ok c) :
    run fuel settings path text options = frames fuel false options.ticks c.host.output (drained c) := by
  rw [run, hparse]
  dsimp only
  rw [hload, h]
  dsimp only
  rw [drain_false]

theorem stdout_run (fuel : Nat) (settings : Settings) (path text : String) {options : RunOptions}
    (h : options.dump = false) :
    (run fuel settings path text options).stdout =
      String.join (runTexts fuel settings path text options) := by
  rw [runTexts]
  cases hparse : Cart.parseOrSource text with
  | error e =>
    rw [run, hparse]
    rfl
  | ok cart =>
    dsimp only
    cases hload : load fuel settings path cart options.buttons with
    | error failure =>
      have hheard := Console.load_error hload
      rw [run, hparse]
      dsimp only
      rw [hload]
      simp [Transcript.failure, hheard, Recorder.withButtons]
    | ok c =>
      obtain ⟨hc, hheard⟩ := Console.load_ok hload
      have hsame := Console.frameTexts_following (flushed_drained hc) c.host fuel options.ticks
      rw [following_drained] at hsame
      rw [run_of_load h hparse hload, stdout_frames (flushed_drained hc) rfl, ← hsame, hheard]
      simp [Recorder.withButtons]

end Tool

namespace Console

/-- Whatever is booted, loaded, read, run or held down, and whether it succeeds or fails: after each
    call the output is empty, and the host has heard what each call printed into an empty output,
    once and in order; so has the host that a failed boot or load hands back. A cart that is played
    without a dump prints what loading it printed and then what each frame did, up to the first
    that fails. -/
theorem output_reaches_host_once (limits : Limits) (host : Recorder) :
    (∀ texts c, Told limits host texts c →
      c.engine.machine.output = .empty limits.outputBytes ∧
      c.host.output = host.output ++ String.join texts) ∧
    (∀ settings failure, boot host settings limits = .error failure →
      failure.host.output = host.output ++ bootText host settings limits) ∧
    (∀ fuel label source settings failure, load fuel host label source settings limits = .error failure →
      failure.host.output = host.output ++ String.join (loadTexts fuel host label source settings limits)) ∧
    ∀ fuel settings path text options, options.dump = false →
      (Tool.run fuel settings path text options).stdout =
        String.join (Tool.runTexts fuel settings path text options) := by
  refine ⟨fun texts c h => ?_, fun _ _ => boot_error, fun _ _ _ _ _ => load_error,
      fun _ _ _ _ _ => Tool.stdout_run _ _ _ _⟩
  obtain ⟨hc, hheard⟩ := h.flushed
  exact ⟨hc.output, hheard⟩

def countdownLimits : Limits := { outputBytes := 4 }

def countdownBooted : Console where
  engine := { bare countdownLimits (.withButtons 0) with
    dict := (bare countdownLimits (.withButtons 0)).dict.withConstants (ConsoleSettings.constants {}) }
  entryPoint := "draw_frame"
  entry := none
  ticks := 0

/-- Its second frame prints a number and then fails, since the stack is empty. -/
def countdownText : String := ": draw_frame depth . . ; 2"

def countdownReading (text : String) : Op Unit := do interpret 0 "countdown.fs" text; discard resolve

def countdown : Console := stateAfter (countdownReading countdownText) countdownBooted

def countedDown : Console :=
  [Command.tick 0, .tick 0, .interpret 0 "more.fs" "5 . nope"].foldl (fun c k => stateAfter k.act c) countdown

theorem countdown_evaluates :
    succeeds (countdownReading countdownText) countdownBooted = true ∧
    (Tool.frames 0 false 3 countdown.host.output (Tool.drained countdown)).stdout = "1\n2\n0\n" ∧
    countedDown.host.output = "1\n2\n0\n5\n" ∧
    (failure? (countdownReading "5 . nope") countdownBooted).isSome = true ∧
    (stateAfter (countdownReading "5 . nope") countdownBooted).host.output = "5\n" := by
  decide +kernel

theorem countdown_boots : boot (.withButtons 0) {} countdownLimits = .ok countdownBooted :=
  boot_eq _ _ (by decide)

theorem countdown_loads :
    load 0 (.withButtons 0) "countdown.fs" countdownText {} countdownLimits = .ok countdown :=
  load_of_boot countdown_boots (ok_of_succeeds countdown_evaluates.1)

theorem countdown_refused : ∃ halt, load 0 (.withButtons 0) "countdown.fs" "5 . nope" {} countdownLimits =
    .error ⟨halt, (stateAfter (countdownReading "5 . nope") countdownBooted).host⟩ := by
  obtain ⟨halt, hhalt⟩ := Option.isSome_iff_exists.mp countdown_evaluates.2.2.2.1
  exact ⟨halt, load_of_boot_of_error countdown_boots (error_of_failure? hhalt)⟩

theorem countdown_parses : ∃ cart, Cart.parseOrSource countdownText = .ok cart ∧
    cart.source = countdownText := by
  have hparse : (Cart.parseOrSource countdownText).toOption.map (·.source) = some countdownText := by
    decide +kernel
  cases h : Cart.parseOrSource countdownText with
  | error e => rw [h] at hparse; cases hparse
  | ok cart => rw [h] at hparse; exact ⟨cart, rfl, Option.some.inj hparse⟩

theorem countdown_runs :
    (Tool.run 0 { engine := countdownLimits } "carts/countdown.fs" countdownText { ticks := 3 }).stdout =
      "1\n2\n0\n" := by
  obtain ⟨cart, hcart, hsource⟩ := countdown_parses
  have hname : Tool.fileName "carts/countdown.fs" = "countdown.fs" := by decide +kernel
  have hload : Tool.load 0 { engine := countdownLimits } "carts/countdown.fs" cart 0 = .ok countdown := by
    rw [Tool.load, hname, hsource]
    exact countdown_loads
  rw [Tool.run_of_load rfl hcart hload]
  exact countdown_evaluates.2.1

theorem countdown_told : ∃ texts, Told countdownLimits (.withButtons 0) texts countedDown := by
  refine List.foldlRecOn (motive := fun c => ∃ texts, Told countdownLimits (.withButtons 0) texts c) _ _
    ⟨_, .load countdown_loads⟩ ?_
  rintro c ⟨texts, h⟩ k -
  exact ⟨_, .command k h⟩

theorem output_reaches_host_once_countdown :
    (∃ texts, Told countdownLimits (.withButtons 0) texts countedDown ∧
      countedDown.engine.machine.output = .empty 4 ∧ countedDown.host.output = "1\n2\n0\n5\n" ∧
      String.join texts = "1\n2\n0\n5\n") ∧
    (∃ failure, boot (.withButtons 0) {} { dataCells := 0 } = .error failure ∧
      failure.host.output = bootText (.withButtons 0) {} { dataCells := 0 }) ∧
    (∃ failure, load 0 (.withButtons 0) "countdown.fs" "5 . nope" {} countdownLimits = .error failure ∧
      failure.host.output = "5\n" ∧
      String.join (loadTexts 0 (.withButtons 0) "countdown.fs" "5 . nope" {} countdownLimits) = "5\n") ∧
    String.join (Tool.runTexts 0 { engine := countdownLimits } "carts/countdown.fs" countdownText
      { ticks := 3 }) = "1\n2\n0\n" := by
  obtain ⟨hcalls, -, hloads, hruns⟩ := output_reaches_host_once countdownLimits (.withButtons 0)
  obtain ⟨-, -, hheard, -, hfailure⟩ := countdown_evaluates
  obtain ⟨texts, htold⟩ := countdown_told
  obtain ⟨houtput, hjoin⟩ := hcalls texts countedDown htold
  obtain ⟨halt, hrefused⟩ := countdown_refused
  obtain ⟨failure, hboot⟩ :=
    boot_starved (.withButtons 0) {} (show ({ dataCells := 0 } : Limits).dataCells = 0 from rfl)
  refine ⟨⟨texts, htold, houtput, hheard, ?_⟩, ⟨failure, hboot, ?_⟩, ⟨_, hrefused, hfailure, ?_⟩, ?_⟩
  · rw [← hheard, hjoin]
    exact (String.empty_append ..).symm
  · rw [(output_reaches_host_once _ _).2.1 _ _ hboot]
    exact String.empty_append ..
  · have hsame := hloads _ _ _ _ _ hrefused
    rw [← hfailure, hsame]
    exact (String.empty_append ..).symm
  · rw [← countdown_runs]
    exact (hruns _ _ _ _ _ rfl).symm

end Console

end Handheld
