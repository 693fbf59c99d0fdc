/-
  Handheld.Proofs.ConsoleRoom — a game that loads and plays does so in a larger console too.

  No word of the recorder can tell how much room there is (`words_steady`), so a console with
  larger stacks, memory or output carries on in step with a smaller one from booting on: through
  the prelude, the source and every frame, whatever buttons are held down.
-/

import Handheld.Proofs.Booting
import Handheld.Proofs.Capacity

namespace Handheld

variable {σ α : Type} {size : Nat}

/-! ## The words of the recorder -/

namespace Native

theorem transfers_write (s : String) : Transfers (Surface.Roomier (σ := σ)) (write s) (write s) := by
  intro v v' a t hR h
  unfold write at h ⊢
  dsimp only at h ⊢
  split at h <;> cases h
  next ho =>
    obtain ⟨o', ho', hRo⟩ := Output.transfers_write s _ _ _ _ hR.output ho
    rw [ho']
    exact ⟨_, rfl, hR.host, hRo⟩

theorem transfers_bytesAt {m m' : Memory} (hm : Memory.Roomier size m m') (addr len : Cell) :
    Transfers (Surface.Roomier (σ := σ)) (bytesAt m addr len) (bytesAt m' addr len) := by
  unfold bytesAt
  cases len.toNat? with
  | none => exact .throw _ _
  | some n =>
    cases Memory.addrOfCell addr with
    | error e => exact .throw _ _
    | ok a =>
      dsimp only
      cases hb : Memory.fetchBytes a n m with
      | error e t => exact .throw _ _
      | ok bytes t =>
        obtain ⟨t', hb', -⟩ := Memory.transfers_fetchBytes a n _ _ _ _ hm hb
        rw [hb']
        exact .pure bytes

theorem bytesAt_cases (m : Memory) (addr len : Cell) :
    (∃ bytes, (bytesAt m addr len : EStateM Fault (Surface σ) _) = pure bytes) ∨
      ∃ e, (bytesAt m addr len : EStateM Fault (Surface σ) _) = throw (.memory e) := by
  unfold bytesAt
  cases len.toNat? with
  | none => exact .inr ⟨_, rfl⟩
  | some n =>
    cases Memory.addrOfCell addr with
    | error e => exact .inr ⟨e, rfl⟩
    | ok a =>
      dsimp only
      cases Memory.fetchBytes a n m with
      | error e t => exact .inr ⟨e, rfl⟩
      | ok bytes t => exact .inl ⟨bytes, rfl⟩

end Native

namespace Recorder

theorem drawText_cases (args : List Cell) (memory : Memory) :
    drawText args memory = pure none ∨ (∃ d, drawText args memory = recording d) ∨ ∃ e,
    drawText args memory = throw (.memory e) := by
  unfold drawText
  split
  · next x y addr len =>
    rcases Native.bytesAt_cases (σ := Recorder) memory addr len with ⟨bytes, h⟩ | ⟨e, h⟩
    · exact .inr (.inl ⟨_, by rw [h]; rfl⟩)
    · exact .inr (.inr ⟨e, by rw [h]; rfl⟩)
  · exact .inl rfl

theorem playSound_cases (args : List Cell) (memory : Memory) :
    playSound args memory = pure none ∨ ∃ d, playSound args memory = recording d := by
  unfold playSound
  split
  · split
    · split
      · exact .inr ⟨_, rfl⟩
      · exact .inl rfl
    · exact .inl rfl
  · exact .inl rfl

/-- A property of all that a word of the recorder can do has it of the words. -/
theorem words_induction {P : EStateM Fault (Surface Recorder) (Option Cell) → Prop} (hnone : P (pure none))
    (hbuttons : P (do return some (← get).host.buttons)) (hrecording : ∀ d, P (recording d))
    (hwrite : ∀ text, P (Native.write text >>= fun _ => pure none)) (hmemory : ∀ e, P (throw (.memory e))) :
    ∀ w ∈ words, ∀ args memory, P (w.2.2 args memory) := by
  simp only [words, List.forall_mem_cons, List.not_mem_nil, false_imp_iff, implies_true, and_true]
  refine ⟨?_, ?_, ?_, ?_, ?_, fun args memory => ?_, fun args memory => ?_, fun _ _ => hbuttons,
      fun args memory => ?_⟩
  case refine_6 =>
    rcases drawText_cases args memory with h | ⟨d, h⟩ | ⟨e, h⟩ <;> rw [h]
    · exact hnone
    · exact hrecording d
    · exact hmemory e
  case refine_7 =>
    unfold printLine
    split
    · exact hwrite _
    · exact hnone
  case refine_8 =>
    rcases playSound_cases args memory with h | ⟨d, h⟩ <;> rw [h]
    · exact hnone
    · exact hrecording d
  -- the others record a drawing, given as many arguments as it needs
  all_goals
    intro args memory
    simp only [clear.eq_def, setColor.eq_def, drawLine.eq_def, fillRect.eq_def, drawSprite.eq_def]
    split
    · exact hrecording _
    · exact hnone

theorem transfers_recording (d : Drawing) : Transfers Surface.Roomier (recording d) (recording d) := by
  intro v v' a t hR h
  cases h
  exact ⟨_, rfl, congrArg (record · d) hR.host, hR.output⟩

theorem drawText_steady : drawText.Steady := by
  intro size args s s' hs
  unfold drawText
  split
  · exact (Native.transfers_bytesAt hs _ _).bind fun _ => transfers_recording _
  · exact .pure none

theorem printLine_steady : printLine.Steady := by
  intro size args s s' _
  unfold printLine
  split
  · exact (Native.transfers_write _).bind fun _ => .pure none
  · exact .pure none

theorem readButtons_steady : readButtons.Steady := by
  intro size args s s' _
  exact .read (f := fun b => pure (some b)) (fun v : Surface Recorder => v.host.buttons)
      (fun _ _ h => by rw [h.host])
    fun b => .pure (some b)

theorem playSound_steady : playSound.Steady := by
  intro size args s s' _
  unfold playSound
  split
  · split
    · split
      · exact transfers_recording _
      · exact .pure none
    · exact .pure none
  · exact .pure none

theorem words_steady : ∀ w ∈ words, w.2.2.Steady := by
  simp only [words, List.forall_mem_cons, List.not_mem_nil, false_imp_iff, implies_true, and_true]
  refine ⟨?_, ?_, ?_, ?_, ?_, drawText_steady, printLine_steady, readButtons_steady, playSound_steady⟩
  -- the others record a drawing, given as many arguments as it needs
  all_goals
    intro size args s s' _
    simp only [clear.eq_def, setColor.eq_def, drawLine.eq_def, fillRect.eq_def, drawSprite.eq_def]
    split
    · exact transfers_recording _
    · exact .pure none

end Recorder

/-! ## Consoles -/

/-- Sizes that are nowhere larger, and the same budget. -/
structure Limits.AtMost (p p' : Limits) : Prop where
  dataCells : p.dataCells ≤ p'.dataCells
  returnCells : p.returnCells ≤ p'.returnCells
  memoryBytes : p.memoryBytes ≤ p'.memoryBytes
  outputBytes : p.outputBytes ≤ p'.outputBytes
  stepBudget : p'.stepBudget = p.stepBudget

namespace Console

/-- The same console with more room than a memory of this size. -/
structure Roomier (size : Nat) (c c' : Console) : Prop where
  engine : Engine.Roomier size c.engine c'.engine
  entryPoint : c'.entryPoint = c.entryPoint
  entry : c'.entry = c.entry
  ticks : c'.ticks = c.ticks

theorem Roomier.modifyHost {c c' : Console} (h : Roomier size c c') (f : Recorder → Recorder) :
    Roomier size (c.modifyHost f) (c'.modifyHost f) :=
  { h with engine :=
      { h.engine with machine := { h.engine.machine with host := congrArg f h.engine.machine.host } } }

theorem Roomier.flush {c c' : Console} (h : Roomier size c c') : Roomier size c.flush c'.flush := by
  have hprinted : c'.engine.printed = c.engine.printed := h.engine.machine.output.text
  have hheard := h.modifyHost (·.hear c.engine.printed)
  unfold Console.flush
  rw [hprinted]
  exact { hheard with
    engine := { hheard.engine with
      machine := { hheard.engine.machine with output := ⟨rfl, hheard.engine.machine.output.capacity⟩ } } }

theorem transfers_onEngine {act : Session Recorder α} (ha : Transfers (Engine.Roomier size) act act) :
    Transfers (Roomier size) (onEngine act) (onEngine act) := by
  intro c c' a t hR h
  unfold onEngine at h ⊢
  dsimp only at h ⊢
  split at h <;> cases h
  next he =>
    obtain ⟨s', hs', hRs⟩ := ha _ _ _ _ hR.engine he
    rw [hs']
    exact ⟨_, rfl, { hR with engine := hRs }⟩

theorem transfers_after {act : Op α} {f : Console → Console} (ha : Transfers (Roomier size) act act)
    (hf : ∀ c c', Roomier size c c' → Roomier size (f c) (f c')) :
    Transfers (Roomier size) (after act f) (after act f) := by
  intro c c' a t hR h
  unfold after at h ⊢
  split at h <;> cases h
  next hc =>
    obtain ⟨t', ht', hRt⟩ := ha _ _ _ _ hR hc
    rw [ht']
    exact ⟨_, rfl, hf _ _ hRt⟩

theorem transfers_interpret (fuel : Nat) (label text : String) :
    Transfers (Roomier size) (interpret fuel label text) (interpret fuel label text) :=
  transfers_after (transfers_onEngine (Engine.transfers_interpret fuel label text)) fun _ _ h =>
      { h.flush with entry := rfl }

theorem transfers_resolve : Transfers (Roomier size) resolve resolve := by
  refine .of_common fun c c' h => ?_
  have hpoint := h.entryPoint
  have hentry : c'.engine.dict.entry? c'.entryPoint = c.engine.dict.entry? c.entryPoint := by
    rw [h.engine.dict, hpoint]
  cases he : c.engine.dict.entry? c.entryPoint with
  | none =>
    rw [he] at hentry
    refine ⟨throw (.fault (.missingEntryPoint c.entryPoint)), ?_, ?_, .throw _ _⟩
    · rw [resolve, bind_of_ok (get_apply c), he]
    · rw [resolve, bind_of_ok (get_apply c'), hentry, hpoint]
  | some a =>
    rw [he] at hentry
    refine ⟨_, by rw [resolve, bind_of_ok (get_apply c), he],
      by rw [resolve, bind_of_ok (get_apply c'), hentry], ?_⟩
    exact (Transfers.modify fun _ _ h => { h with entry := rfl }).bind fun _ => .pure a

theorem transfers_reading (fuel : Nat) (label source : String) :
    Transfers (Roomier size) (do interpret fuel label source; discard resolve)
      (do interpret fuel label source; discard resolve) :=
  (transfers_interpret fuel label source).bind fun _ => transfers_resolve.discard

theorem transfers_frame (fuel a : Nat) : Transfers (Roomier size)
    (after (onEngine (Engine.callAddress fuel a)) fun c => { c.flush with ticks := c.ticks + 1 })
    (after (onEngine (Engine.callAddress fuel a)) fun c => { c.flush with ticks := c.ticks + 1 }) :=
  transfers_after (transfers_onEngine (Engine.transfers_callAddress fuel a)) fun _ _ h =>
    { h.flush with ticks := congrArg (· + 1) h.ticks }

theorem transfers_tick (fuel : Nat) : Transfers (Roomier size) (tick fuel) (tick fuel) := by
  refine .of_common fun c c' h => ?_
  have hentry := h.entry
  cases he : c.entry with
  | none =>
    rw [he] at hentry
    refine ⟨_,
        by rw [tick, bind_of_ok (get_apply c), he], by rw [tick, bind_of_ok (get_apply c'), hentry], ?_⟩
    exact transfers_resolve.bind fun a => transfers_frame fuel a
  | some a =>
    rw [he] at hentry
    refine ⟨_,
        by rw [tick, bind_of_ok (get_apply c), he], by rw [tick, bind_of_ok (get_apply c'), hentry], ?_⟩
    exact (Transfers.pure a).bind fun a => transfers_frame fuel a

/-- Plays a frame for each mask of buttons. -/
def play (fuel : Nat) : List Cell → Op Unit
  | [] => pure ()
  | mask :: masks => do
    modify (·.modifyHost fun r => { r with buttons := mask })
    tick fuel
    play fuel masks

theorem transfers_play (fuel : Nat) (masks : List Cell) :
    Transfers (Roomier size) (play fuel masks) (play fuel masks) := by
  induction masks with
  | nil => exact .pure ()
  | cons mask masks ih =>
    exact (Transfers.modify fun _ _ h => h.modifyHost _).bind fun _ => (transfers_tick fuel).bind fun _ => ih

/-! ## Booting and loading -/

theorem bare_steady (p : Limits) (host : Recorder) : (bare p host).dict.Steady :=
  bare_all (P := Kind.Steady) (fun _ => trivial) Recorder.words_steady p host

theorem bare_roomier {p p' : Limits} (hp : p.AtMost p') (host : Recorder) :
    Engine.Roomier (min p.memoryBytes Cell.maxNat) (bare p host) (bare p' host) where
  steady := bare_steady p host
  dict := rfl
  machine :=
    { data := ⟨rfl, rfl, hp.dataCells⟩
      ret := ⟨rfl, rfl, hp.returnCells⟩
      memory :=
      ⟨rfl, rfl, by have := hp.memoryBytes; show _ ≤ min p'.memoryBytes Cell.maxNat; omega, fun _ _ => rfl⟩
      output := ⟨rfl, hp.outputBytes⟩
      host := rfl
      ip := rfl
      base := rfl }
  mode := rfl
  budget := hp.stepBudget

variable {p p' : Limits} {host : Recorder} {settings : ConsoleSettings} {c t : Console}

theorem boot_roomier (hp : p.AtMost p') (h : boot host settings p = .ok c) :
    ∃ c', boot host settings p' = .ok c' ∧ Roomier (min p.memoryBytes Cell.maxNat) c c' := by
  unfold boot at h ⊢
  split at h <;> cases h
  next hs =>
    obtain ⟨s', hs', hR⟩ := Engine.transfers_interpret _ _ _ _ _ _ _ (bare_roomier hp host) hs
    rw [hs']
    exact ⟨_, rfl, hR, rfl, rfl, rfl⟩

theorem load_of_boot {fuel : Nat} {label source : String} (hboot : boot host settings p = .ok c)
    (hread : (do interpret fuel label source; discard resolve : Op Unit) c = .ok () t) :
    load fuel host label source settings p = .ok t := by
  rw [load, hboot]
  dsimp only
  rw [hread]

theorem load_of_boot_of_error {fuel : Nat} {label source : String} {halt : Halt}
    (hboot : boot host settings p = .ok c)
    (hread : (do interpret fuel label source; discard resolve : Op Unit) c = .error halt t) :
    load fuel host label source settings p = .error ⟨halt, t.host⟩ := by
  rw [load, hboot]
  dsimp only
  rw [hread]

theorem load_roomier {fuel : Nat} {label source : String} (hp : p.AtMost p')
    (h : load fuel host label source settings p = .ok c) :
    ∃ c', load fuel host label source settings p' = .ok c' ∧
    Roomier (min p.memoryBytes Cell.maxNat) c c' := by
  unfold load at h
  split at h
  · cases h
  · next hboot =>
    obtain ⟨c₁', hboot', hR₁⟩ := boot_roomier hp hboot
    split at h <;> cases h
    next hread =>
      obtain ⟨c', hread', hR⟩ := transfers_reading fuel label source _ _ _ _ hR₁ hread
      exact ⟨c', load_of_boot hboot' hread', hR⟩

/-- A game that loads and plays under some limits loads and plays under larger ones: with the
    same stacks, dictionary and free end, everything drawn and printed alike, and the same bytes
    as far as the smaller memory goes. -/
theorem larger_console_plays_alike (hp : p.AtMost p') {fuel : Nat} {label source : String} {masks : List Cell}
    (hload : load fuel host label source settings p = .ok c) (hplay : play fuel masks c = .ok () t) :
    ∃ c' t', load fuel host label source settings p' = .ok c' ∧ play fuel masks c' = .ok () t' ∧
      t'.engine.machine.data.cells = t.engine.machine.data.cells ∧
      t'.engine.machine.ret.cells = t.engine.machine.ret.cells ∧
      t'.engine.dict = t.engine.dict ∧
      t'.engine.machine.memory.here = t.engine.machine.memory.here ∧
      t'.host = t.host ∧
      t.engine.machine.memory.capacity = min p.memoryBytes Cell.maxNat ∧
      ∀ a < t.engine.machine.memory.capacity,
        t'.engine.machine.memory.byteAt a = t.engine.machine.memory.byteAt a := by
  obtain ⟨c', hload', hRc⟩ := load_roomier hp hload
  obtain ⟨t', hplay', hR⟩ := transfers_play fuel masks c c' () t hRc hplay
  have hm := hR.engine.machine
  refine ⟨c', t', hload', hplay', hm.data.cells, hm.ret.cells, hR.engine.dict, hm.memory.here, hm.host,
      hm.memory.smaller, ?_⟩
  rw [hm.memory.smaller]
  exact hm.memory.bytes

/-- A game that shows which buttons are held down, as a colour and as a number. -/
def lampText : String := ": draw_frame buttons dup cls . ;"

/-- No larger than the game needs. -/
def lampLimits : Limits := { dataCells := 2, returnCells := 0, memoryBytes := 20, outputBytes := 2 }

/-- The console before the game is read. -/
def lampBooted : Console where
  engine := { bare lampLimits (.withButtons 0) with
    dict := (bare lampLimits (.withButtons 0)).dict.withConstants (ConsoleSettings.constants {}) }
  entryPoint := "draw_frame"
  entry := none
  ticks := 0

def lampReading : Op Unit := do interpret 0 "lamp" lampText; discard resolve

def lampLoaded : Console := stateAfter lampReading lampBooted

def lampPlayed : Console := stateAfter (play 0 [1, 6]) lampLoaded

theorem play_lamp : succeeds lampReading lampBooted = true ∧ succeeds (play 0 [1, 6]) lampLoaded = true ∧
    lampPlayed.host = ⟨#[.clear 1, .clear 6], "1\n6\n", 6⟩ := by
  decide +kernel

/-- The game in a console of ordinary size. -/
theorem larger_console_plays_alike_lamp : ∃ c t c' t',
    load 0 (.withButtons 0) "lamp" lampText {} lampLimits = .ok c ∧ play 0 [1, 6] c = .ok () t ∧
    load 0 (.withButtons 0) "lamp" lampText {} {} = .ok c' ∧ play 0 [1, 6] c' = .ok () t' ∧
    t'.host = ⟨#[.clear 1, .clear 6], "1\n6\n", 6⟩ ∧
    ∀ a < 20, t'.engine.machine.memory.byteAt a = t.engine.machine.memory.byteAt a := by
  obtain ⟨hreads, hplays, hhost⟩ := play_lamp
  have hread : lampReading lampBooted = .ok () lampLoaded := ok_of_succeeds hreads
  have hplay : play 0 [1, 6] lampLoaded = .ok () lampPlayed := ok_of_succeeds hplays
  have hboot : boot (.withButtons 0) {} lampLimits = .ok lampBooted := boot_eq _ _ (by decide)
  have hload : load 0 (.withButtons 0) "lamp" lampText {} lampLimits = .ok lampLoaded :=
    load_of_boot hboot hread
  have hp : lampLimits.AtMost {} := ⟨by decide, by decide, by decide, by decide, rfl⟩
  obtain ⟨c', t', hload', hplay', -, -, -, -, hsame, hcapacity, hbytes⟩ :=
    larger_console_plays_alike hp hload hplay
  refine ⟨_, _, c', t', hload, hplay, hload', hplay', by rw [hsame, hhost], fun a ha => hbytes a ?_⟩
  rw [hcapacity]
  exact ha

end Console

end Handheld
