/-
  Handheld.Proofs.Booting — a console boots as soon as its data stack has a cell.

  The prelude is text like any other: a line `v constant NAME` for each constant. Its words are
  read one by one (`Source.next_append`), the numerals among them mean numbers because no word is
  called like a number (`NoNumerals`), and so every line adds one constant and leaves the rest of
  the engine as it was (`feedAll_constants`). No two of the constants have one name, so a program
  finds each of them with its value (`find?_withConstants`).
-/

import Handheld.Console.Basic
import Handheld.Proofs.Reading
import Handheld.Proofs.Session

namespace Handheld

variable {σ : Type}

/-! ## Numerals -/

namespace Text

theorem digitValue?_of_isDigit {c : Char} (h : c.isDigit = true) :
    digitValue? c = some (c.toNat - '0'.toNat) := by
  have hrange : '0' ≤ c ∧ c ≤ '9' := by
    simp only [Char.isDigit, ge_iff_le, Bool.and_eq_true, decide_eq_true_eq] at h
    exact h
  rw [digitValue?, if_pos hrange]

theorem readDigits?_of_isDigit {cs : List Char} (h : ∀ c ∈ cs, c.isDigit = true) (acc : Nat) :
    readDigits? acc cs = some (Nat.ofDigitChars 10 cs acc) := by
  induction cs generalizing acc with
  | nil => rfl
  | cons c cs ih =>
    rw [readDigits?, digitValue?_of_isDigit (h c List.mem_cons_self), Nat.ofDigitChars_cons]
    exact ih (fun d hd => h d (List.mem_cons_of_mem c hd)) _

theorem isDigit_of_mem_showNat {n : Nat} {c : Char} (h : c ∈ (showNat n).toList) : c.isDigit = true := by
  rw [showNat, String.toList_ofList] at h
  exact Nat.isDigit_of_mem_toDigits (by decide) (by decide) h

theorem readNat?_showNat (n : Nat) : readNat? (showNat n).toList = some n := by
  have hdigits := readDigits?_of_isDigit (fun c => isDigit_of_mem_showNat (n := n) (c := c)) 0
  rw [showNat, String.toList_ofList] at hdigits ⊢
  rw [readNat?, if_neg (by simp [Nat.toDigits_ne_nil]), hdigits, Nat.ofDigitChars_ten_toDigits]

theorem toList_showInt (v : Int) :
    (showInt v).toList = (if v < 0 then ['-'] else []) ++ (showNat v.natAbs).toList := by
  unfold showInt
  split
  · rw [String.toList_append]
    rfl
  · rfl

theorem readInt?_showInt (v : Int) : readInt? (showInt v).toList = some v := by
  rw [toList_showInt]
  by_cases hv : v < 0
  · have habs : -(v.natAbs : Int) = v := by omega
    rw [if_pos hv, List.singleton_append, readInt?, readNat?_showNat]
    exact congrArg some habs
  · have hdash : ∀ cs, (showNat v.natAbs).toList ≠ '-' :: cs := by
      intro cs hcs
      have hc := isDigit_of_mem_showNat (n := v.natAbs) (c := '-') (by rw [hcs]; exact List.mem_cons_self)
      revert hc
      decide
    have habs : (v.natAbs : Int) = v := by omega
    rw [if_neg hv, List.nil_append, readInt?.eq_2 _ hdash, readNat?_showNat]
    exact congrArg some habs

theorem isBlank_of_isDigit {c : Char} (h : c.isDigit = true) : isBlank c = false := by
  have hrange : 48 ≤ c.toNat ∧ c.toNat ≤ 57 := by
    simpa [Char.isDigit, UInt32.le_iff_toNat_le] using h
  simp only [isBlank, Bool.or_eq_false_iff, Bool.and_eq_false_iff, decide_eq_false_iff_not,
    beq_eq_false_iff_ne]
  omega

end Text

theorem Name.isWord_showInt (v : Int) : isWord (Text.showInt v) = true := by
  rw [isWord_iff, Text.toList_showInt]
  constructor
  · have hne : (Text.showNat v.natAbs).toList ≠ [] := by
      rw [Text.showNat, String.toList_ofList]
      exact Nat.toDigits_ne_nil
    simp [hne]
  · intro c hc
    rcases List.mem_append.mp hc with hc | hc
    · split at hc
      · cases List.mem_singleton.mp hc
        decide
      · cases hc
    · exact Text.isBlank_of_isDigit (Text.isDigit_of_mem_showNat hc)

theorem numeral?_showInt (v : Int) : numeral? (Text.showInt v) = Cell.ofInt? v := by
  rw [numeral?, Text.readInt?_showInt]
  rfl

/-- No reserved word is a number. -/
theorem Reserved.ofText?_of_readInt? {word : String} {v : Int}
    (h : Text.readInt? word.toList = some v) : ofText? word = none := by
  have htable : ∀ w ∈ table, Text.readInt? w.1.toList = none := by decide +kernel
  rw [ofText?, List.lookup_eq_none_iff]
  intro w hw
  rw [bne_iff_ne]
  rintro rfl
  rw [htable w hw] at h
  cases h

/-! ## Constants -/

namespace Dictionary

/-- No word that can be seen is called like a number. -/
def NoNumerals (d : Dictionary σ) : Prop :=
  ∀ xt e, d.get? xt = some e → e.hidden = false → Text.readInt? e.name.text.toList = none

variable {d : Dictionary σ}

theorem NoNumerals.push (hd : d.NoNumerals) {name : String} (hname : Text.readInt? name.toList = none)
    (kind : Kind σ) : (d.push name kind).2.NoNumerals := by
  intro xt e he hv
  rw [get?_push] at he
  split at he
  · cases he; exact hname
  · exact hd xt e he hv

theorem NoNumerals.pushHidden (hd : d.NoNumerals) (name : String) (kind : Kind σ) :
    (d.pushHidden name kind).2.NoNumerals := by
  intro xt e he hv
  rw [get?_pushHidden] at he
  split at he
  · cases he; cases hv
  · exact hd xt e he hv

theorem NoNumerals.sense?_showInt (hd : d.NoNumerals) (v : Int) :
    d.sense? (Text.showInt v) = (Cell.ofInt? v).map .literal := by
  have hfind : d.find? (Text.showInt v) = none := by
    cases hf : d.find? (Text.showInt v) with
    | none => rfl
    | some xt =>
      obtain ⟨e, he, hv, hname⟩ := findBelow_eq_some hf
      have hnone := hd xt e he hv
      rw [hname] at hnone
      rw [Name.ofString, Text.readInt?_showInt] at hnone
      cases hnone
  rw [sense?, hfind, numeral?_showInt]

def withConstants (d : Dictionary σ) (cs : List (String × Int)) : Dictionary σ :=
  cs.foldl (fun d c => (d.push c.1 (.constant (Int32.ofInt c.2))).2) d

theorem withConstants_append (d : Dictionary σ) (as bs : List (String × Int)) :
    d.withConstants (as ++ bs) = (d.withConstants as).withConstants bs := List.foldl_append

theorem extends_withConstants (d : Dictionary σ) (cs : List (String × Int)) :
    d.Extends (d.withConstants cs) := by
  induction cs generalizing d with
  | nil => exact .refl d
  | cons c cs ih => exact (d.extends_push c.1 _).trans (ih _)

theorem find?_withConstants_of_not_mem (d : Dictionary σ) {cs : List (String × Int)} {name : String}
    (h : name ∉ cs.map Prod.fst) : (d.withConstants cs).find? name = d.find? name := by
  induction cs generalizing d with
  | nil => rfl
  | cons c cs ih =>
    obtain ⟨hne, hrest⟩ := not_or.mp (fun hor => h (List.mem_cons.mpr hor))
    exact (ih _ hrest).trans (d.find?_push_of_ne (Ne.symm hne) _)

/-- Of constants with different names each can be found. -/
theorem find?_withConstants (d : Dictionary σ) {cs : List (String × Int)} (hcs : (cs.map Prod.fst).Nodup)
    {c : String × Int} (hc : c ∈ cs) :
    ∃ xt, (d.withConstants cs).find? c.1 = some xt ∧
      (d.withConstants cs).get? xt = some ⟨.ofString c.1, .constant (Int32.ofInt c.2), false⟩ := by
  obtain ⟨as, bs, rfl⟩ := List.append_of_mem hc
  have hlater : c.1 ∉ bs.map Prod.fst := by
    rw [List.map_append, List.map_cons, List.nodup_append] at hcs
    exact (List.nodup_cons.mp hcs.2.1).1
  have hsplit : d.withConstants (as ++ c :: bs) =
      ((d.withConstants as).push c.1 (.constant (Int32.ofInt c.2))).2.withConstants bs :=
    d.withConstants_append as (c :: bs)
  refine ⟨(d.withConstants as).size, ?_, ?_⟩
  · rw [hsplit, find?_withConstants_of_not_mem _ hlater, find?_push]
  · rw [hsplit]
    refine (extends_withConstants _ bs).get? ?_
    rw [get?_push, if_pos rfl]

end Dictionary

/-- A constant that a line of source can define. -/
structure Definable (c : String × Int) : Prop where
  name : Name.isWord c.1 = true
  numeral : Text.readInt? c.1.toList = none
  value : Cell.ofInt? c.2 = some (Int32.ofInt c.2)

instance : DecidablePred Definable := fun c =>
  decidable_of_iff (Name.isWord c.1 = true ∧ Text.readInt? c.1.toList = none ∧
      Cell.ofInt? c.2 = some (Int32.ofInt c.2))
    ⟨fun h => ⟨h.1, h.2.1, h.2.2⟩, fun h => ⟨h.name, h.numeral, h.value⟩⟩

/-- The line that defines a constant. -/
def constantLine (c : String × Int) : List Char :=
  (Text.showInt c.2).toList ++ (' ' :: ("constant".toList ++ (' ' :: (c.1.toList ++ ['\n']))))

theorem phrases_constantLine (l : Location) {blanks : List Char}
    (hblanks : ∀ c ∈ blanks, Text.isBlank c = true)
    {c : String × Int} (hc : Name.isWord c.1 = true) (rest : List Char) :
    ∃ t u l', t.text = Text.showInt c.2 ∧ Source.phrases ⟨l, blanks ++ (constantLine c ++ rest)⟩ =
      .word t :: .define .constant u (some c.1) :: Source.phrases ⟨l', ['\n'] ++ rest⟩ := by
  have hspace : ∀ c ∈ [' '], Text.isBlank c = true := List.forall_mem_singleton.mpr rfl
  have hnumber := Source.next_append l (Text.showInt c.2)
    ([' '] ++ ("constant".toList ++ ([' '] ++ (c.1.toList ++ (['\n'] ++ rest))))) hblanks
      (Name.isWord_showInt c.2)
    (by rintro _ ⟨⟩; rfl)
  have hdefiner l := Source.next_append l "constant" ([' '] ++ (c.1.toList ++ (['\n'] ++ rest))) hspace
    (by decide +kernel) (by rintro _ ⟨⟩; rfl)
  have hname l := Source.next_append l c.1 (['\n'] ++ rest) hspace hc (by rintro _ ⟨⟩; rfl)
  have hplain := Reserved.ofText?_of_readInt? (Text.readInt?_showInt c.2)
  have hreserved : Reserved.ofText? "constant" = some (.define .constant) := by decide +kernel
  have htext : constantLine c ++ rest =
      (Text.showInt c.2).toList ++
        ([' '] ++ ("constant".toList ++ ([' '] ++ (c.1.toList ++ (['\n'] ++ rest))))) := by
    simp [constantLine]
  rw [htext, Source.phrases_of_next hnumber]
  simp only [Phrase.read, hplain]
  rw [Source.phrases_of_next (hdefiner _)]
  simp only [Phrase.read, hreserved, hname, Option.map_some]
  exact ⟨_, _, _, rfl, rfl⟩

namespace Engine

variable {s s₁ : Engine σ} {t u : Token} {v : Cell} {name : String}

/-- A number can be taken off the stack again. -/
theorem feed_numeral (fuel : Nat) (hmode : s.mode = .run)
    (hroom : s.machine.data.depth < s.machine.data.capacity)
    (hsense : s.dict.sense? t.text = some (.literal v)) :
    ∃ s₁, feed fuel (.word t) s = .ok () s₁ ∧ s₁.mode = .run ∧ onMachine Machine.pop s₁ = .ok v s := by
  refine ⟨{ s with machine.data.cells := s.machine.data.cells.push v }, ?_, hmode, ?_⟩
  · rw [feed_of_run hmode, interpretPhrase, bind_of_ok (get_apply s), hsense]
    dsimp only
    rw [onMachine_eq, Machine.push, Machine.onData_eq, Stack.push_of_lt hroom]
  · rw [onMachine_eq, Machine.pop, Machine.onData_eq, Stack.pop_push]

theorem feed_constant (fuel : Nat) (hmode : s₁.mode = .run) (hpop : onMachine Machine.pop s₁ = .ok v s) :
    feed fuel (.define .constant u (some name)) s₁ =
      .ok () { s with dict := (s.dict.push name (.constant v)).2 } := by
  rw [feed_of_run hmode, interpretPhrase, interpretDefiner, bind_of_ok hpop]
  rfl

/-- Lines of constants make these constants and leave nothing else behind. -/
theorem feedAll_constants (fuel : Nat) {cs : List (String × Int)} (hcs : ∀ c ∈ cs, Definable c)
    (hmode : s.mode = .run)
    (hroom : s.machine.data.depth < s.machine.data.capacity) (hdict : s.dict.NoNumerals) (l : Location)
    (blanks : List Char) (hblanks : ∀ c ∈ blanks, Text.isBlank c = true) :
    feedAll fuel (Source.phrases ⟨l, blanks ++ cs.flatMap constantLine⟩) s =
      .ok () { s with dict := s.dict.withConstants cs } := by
  induction cs generalizing s l blanks with
  | nil =>
    rw [List.flatMap_nil, List.append_nil, Source.phrases_of_blank l hblanks]
    rfl
  | cons c cs ih =>
    have hc := hcs c List.mem_cons_self
    obtain ⟨t, u, l', ht, hphrases⟩ := phrases_constantLine l hblanks hc.name (cs.flatMap constantLine)
    have hsense : s.dict.sense? t.text = some (.literal (Int32.ofInt c.2)) := by
      rw [ht, hdict.sense?_showInt, hc.value]
      rfl
    obtain ⟨s₁, hpush, hmode₁, hpop⟩ := feed_numeral fuel hmode hroom hsense
    rw [List.flatMap_cons, hphrases, feedAll, bind_of_ok hpush, feedAll,
      bind_of_ok (feed_constant fuel hmode₁ hpop)]
    exact ih (s := { s with dict := s.dict.withConstants [c] })
      (fun b hb => hcs b (List.mem_cons_of_mem c hb)) hmode hroom (hdict.push hc.numeral _) l' ['\n']
      (List.forall_mem_singleton.mpr rfl)

end Engine

/-! ## The prelude -/

theorem ConsoleSettings.toList_preludeText (s : ConsoleSettings) :
    s.preludeText.toList = s.constants.flatMap constantLine := by
  rw [preludeText, String.toList_join, List.flatMap_map]
  congr 1
  funext c
  simp [constantLine]

theorem Cell.ofInt?_toInt (v : Cell) : ofInt? v.toInt = some (Int32.ofInt v.toInt) :=
  if_pos ⟨v.le_toInt, by have := v.toInt_lt; omega⟩

theorem Cell.ofInt?_eq_some_iff {x : Int} {v : Cell} : ofInt? x = some v ↔ v.toInt = x := by
  constructor
  · intro h
    unfold ofInt? at h
    split at h
    · next hx =>
      cases h
      exact Int32.toInt_ofInt_of_le hx.1 (by omega)
    · cases h
  · rintro rfl
    rw [ofInt?_toInt, Int32.ofInt_toInt]

theorem definable_constants (s : ConsoleSettings) : ∀ c ∈ s.constants, Definable c := by
  have hbuttons : ∀ b ∈ ConsoleSettings.buttons, Definable (b.1, (b.2 : Int)) := by decide +kernel
  have hcolors : ∀ b ∈ Color.palette.zipIdx, Definable (b.1.1, (b.2 : Int)) := by decide +kernel
  have hscreen : ∀ name ∈ ["SCREEN_WIDTH", "SCREEN_HEIGHT"], Name.isWord name = true ∧
      Text.readInt? name.toList = none := by
    decide +kernel
  intro c hc
  simp only [ConsoleSettings.constants, List.mem_append, List.mem_map, List.mem_cons, List.not_mem_nil,
    or_false] at hc
  rcases hc with (⟨b, hb, rfl⟩ | ⟨b, hb, rfl⟩) | rfl | rfl
  · exact hbuttons b hb
  · exact hcolors b hb
  · obtain ⟨hword, hnumeral⟩ := hscreen "SCREEN_WIDTH" (by decide)
    exact ⟨hword, hnumeral, s.screenWidth.ofInt?_toInt⟩
  · obtain ⟨hword, hnumeral⟩ := hscreen "SCREEN_HEIGHT" (by decide)
    exact ⟨hword, hnumeral, s.screenHeight.ofInt?_toInt⟩

namespace Console

theorem bare_induction {P : Dictionary Recorder → Prop} (hempty : P .empty)
    (hhidden : ∀ d name p, P d → P (d.pushHidden name (.builtin p)).2)
    (hprimitive : ∀ d, ∀ w ∈ Primitive.words, P d → P (d.push w.1 (.builtin w.2)).2)
    (hhost : ∀ d, ∀ w ∈ Recorder.words, P d → P (d.push w.1 (.native w.2.1 w.2.2)).2) (limits : Limits)
    (host : Recorder) :
    P (bare limits host).dict := by
  have hwords : P (Dictionary.initial Primitive.words) := by
    refine List.foldlRecOn _ _ ?_ fun d hd w hw => hprimitive d w hw hd
    exact List.foldlRecOn _ _ hempty fun d hd w _ => hhidden d w.1 w.2 hd
  exact List.foldlRecOn _ _ hwords fun d hd w hw => hhost d w hw hd

theorem bare_all {P : Kind Recorder → Prop} (hprimitive : ∀ p, P (.builtin p))
    (hhost : ∀ w ∈ Recorder.words, P (.native w.2.1 w.2.2)) (limits : Limits) (host : Recorder) :
    (bare limits host).dict.All P := by
  refine bare_induction ?_ (fun d name p hd => hd.pushHidden name (hprimitive p))
    (fun d w _ hd => hd.push w.1 (hprimitive w.2))
    (fun d w hw hd => hd.push w.1 (hhost w hw)) limits host
  intro xt e he
  cases he

theorem bare_noNumerals (limits : Limits) (host : Recorder) : (bare limits host).dict.NoNumerals := by
  have hwords : ∀ w ∈ Primitive.words, Text.readInt? w.1.toList = none := by decide +kernel
  have hhost : ∀ w ∈ Recorder.words, Text.readInt? w.1.toList = none := by decide +kernel
  refine bare_induction ?_ (fun d name p hd => hd.pushHidden name _)
    (fun d w hw hd => hd.push (hwords w hw) _)
    (fun d w hw hd => hd.push (hhost w hw) _) limits host
  intro xt e he
  cases he

/-- A console boots with its constants and nothing else. -/
theorem boot_eq (host : Recorder) (settings : ConsoleSettings) {limits : Limits} (h : 0 < limits.dataCells) :
    boot host settings limits = .ok
      { engine := { bare limits host with dict := (bare limits host).dict.withConstants settings.constants }
        entryPoint := settings.entryPoint
        entry := none
        ticks := 0 } := by
  have hread := Engine.feedAll_constants (s := bare limits host) 0 (definable_constants settings) rfl h
    (bare_noNumerals limits host) (.start preludeLabel) [] (List.forall_mem_nil _)
  rw [List.nil_append] at hread
  rw [boot, Engine.interpret, Engine.recovering_eq, Source.ofText, ConsoleSettings.toList_preludeText,
    bind_of_ok hread]
  rfl

/-- Without room for one cell the first constant does not fit, and the recorder has heard nothing. -/
theorem boot_eq_error (host : Recorder) (settings : ConsoleSettings) {limits : Limits}
    (h : limits.dataCells = 0) :
    boot host settings limits = .error ⟨.fault (.stack (.overflow .data)), host⟩ := by
  cases hcs : settings.constants with
  | nil => simp [ConsoleSettings.constants] at hcs
  | cons c cs =>
    have hc := definable_constants settings c (by rw [hcs]; exact List.mem_cons_self)
    obtain ⟨t, u, l, ht, hphrases⟩ :=
      phrases_constantLine (.start preludeLabel) (List.forall_mem_nil _) hc.name (cs.flatMap constantLine)
    have hsense : (bare limits host).dict.sense? t.text = some (.literal (Int32.ofInt c.2)) := by
      rw [ht, (bare_noNumerals limits host).sense?_showInt, hc.value]
      rfl
    have hpush : Engine.onMachine (Machine.push (Int32.ofInt c.2)) (bare limits host) =
        .error (.fault (.stack (.overflow .data))) (bare limits host) := by
      rw [Engine.onMachine_eq, Machine.push, Machine.onData_eq, Stack.push_of_le (Nat.le_of_eq h)]
      rfl
    have hfeed : Engine.feed 0 (.word t) (bare limits host) =
        .error (.fault (.stack (.overflow .data))) (bare limits host) := by
      rw [Engine.feed_of_run rfl, Engine.interpretPhrase, bind_of_ok (get_apply _), hsense]
      exact hpush
    have hheard : host.hear "" = host := by simp [Recorder.hear]
    rw [List.nil_append] at hphrases
    rw [boot, Engine.interpret, Engine.recovering_eq, Source.ofText, ConsoleSettings.toList_preludeText,
      hcs, List.flatMap_cons, hphrases, Engine.feedAll, bind_of_error (bind_of_error hfeed)]
    exact congrArg (fun r : Recorder =>
        Except.error (LoadFailure.mk (.fault (.stack (.overflow .data))) r)) hheard

theorem boot_starved (host : Recorder) (settings : ConsoleSettings) {limits : Limits}
    (h : limits.dataCells = 0) :
    ∃ failure, boot host settings limits = .error failure := ⟨_, boot_eq_error host settings h⟩

/-! ## What a program finds -/

/-- The name stands for a constant of that value. -/
def Holds (c : Console) (name : String) (v : Int) : Prop :=
  ∃ xt e value, c.engine.dict.lookup name = some (.sense (.word xt)) ∧ c.engine.dict.get? xt = some e ∧
    e.kind = .constant value ∧ value.toInt = v

/-- The names a program starts with and their values: a bit for each of six buttons, a number for each
    of sixteen colours and the two sizes of the screen. -/
def startingConstants (settings : ConsoleSettings) : List (String × Int) :=
  [("BUTTON_L", 1), ("BUTTON_R", 2), ("BUTTON_U", 4), ("BUTTON_D", 8), ("BUTTON_A", 16), ("BUTTON_B", 32),
   ("C_TRANSPARENT", 0), ("C_BLACK", 1), ("C_RED", 2), ("C_LIGHT_GREEN", 3), ("C_BLUE", 4), ("C_MAGENTA", 5),
   ("C_YELLOW", 6), ("C_CYAN", 7), ("C_GRAY", 8), ("C_LIGHT_BLUE", 9), ("C_ORANGE", 10), ("C_PURPLE", 11),
   ("C_DARK_GREEN", 12), ("C_BROWN", 13), ("C_SALMON", 14), ("C_WHITE", 15),
   ("SCREEN_WIDTH", settings.screenWidth.toInt), ("SCREEN_HEIGHT", settings.screenHeight.toInt)]

/-- The prelude defines them all and nothing else. -/
theorem constants_eq (settings : ConsoleSettings) : settings.constants = startingConstants settings := rfl

/-- A console that nothing has happened to but that it knows the constants programs start with. -/
structure Booted (host : Recorder) (settings : ConsoleSettings) (c : Console) : Prop where
  data : c.engine.machine.data.depth = 0
  ret : c.engine.machine.ret.depth = 0
  output : c.engine.printed = ""
  host : c.host = host
  here : c.engine.machine.memory.here = 0
  constants : ∀ b ∈ startingConstants settings, c.Holds b.1 b.2

/-- No two constants have one name, and none is reserved. -/
theorem names_constants (s : ConsoleSettings) :
    (s.constants.map Prod.fst).Nodup ∧ ∀ name ∈ s.constants.map Prod.fst, Reserved.ofText? name = none := by
  have hnames : s.constants.map Prod.fst = (ConsoleSettings.constants {}).map Prod.fst := rfl
  rw [hnames]
  decide +kernel

theorem holds_constants (settings : ConsoleSettings) {c : Console} {d : Dictionary Recorder}
    (hd : c.engine.dict = d.withConstants settings.constants) {b : String × Int}
    (hb : b ∈ settings.constants) :
    c.Holds b.1 b.2 := by
  obtain ⟨hnodup, hplain⟩ := names_constants settings
  obtain ⟨xt, hfind, hget⟩ := d.find?_withConstants hnodup hb
  refine ⟨xt, _, _, ?_, by rw [hd]; exact hget, rfl, ?_⟩
  · rw [hd, Dictionary.lookup, hplain b.1 (List.mem_map_of_mem hb), Dictionary.sense?, hfind]
    rfl
  · exact Cell.ofInt?_eq_some_iff.mp (definable_constants settings b hb).value

theorem booted_of_boot {host : Recorder} {settings : ConsoleSettings} {limits : Limits}
    (h : 0 < limits.dataCells) {c : Console}
    (hc : boot host settings limits = .ok c) : Booted host settings c := by
  have hboot := Except.ok.inj (hc.symm.trans (boot_eq host settings h))
  have hmachine : c.engine.machine = (bare limits host).machine := by rw [hboot]
  have hd : c.engine.dict = (bare limits host).dict.withConstants settings.constants := by rw [hboot]
  refine ⟨?_, ?_, ?_, ?_, ?_, fun b hb => ?_⟩
  · rw [hmachine]; rfl
  · rw [hmachine]; rfl
  · rw [Engine.printed, hmachine]; rfl
  · rw [Console.host, hmachine]; rfl
  · rw [hmachine]; rfl
  · rw [← constants_eq] at hb
    exact holds_constants settings hd hb

/-- A console boots if and only if its data stack has a cell, with exactly its constants; and if it
    does not, the host gets back what it gave. -/
theorem boots_with_one_cell (host : Recorder) (settings : ConsoleSettings) (limits : Limits) :
    ((∃ c, boot host settings limits = .ok c) ↔ 1 ≤ limits.dataCells) ∧
    (∀ c, boot host settings limits = .ok c → Booted host settings c) ∧
    ∀ failure, boot host settings limits = .error failure →
      failure.halt = .fault (.stack (.overflow .data)) ∧ failure.host = host := by
  rcases Nat.eq_zero_or_pos limits.dataCells with h | h
  · have hboot := boot_eq_error host settings h
    have hnone : ∀ c, boot host settings limits ≠ .ok c := by
      intro c hc
      rw [hboot] at hc
      cases hc
    refine ⟨⟨fun ⟨c, hc⟩ => absurd hc (hnone c), fun hpos => by omega⟩, fun c hc => absurd hc (hnone c),
        fun failure hf => ?_⟩
    obtain rfl := Except.error.inj (hboot.symm.trans hf)
    exact ⟨rfl, rfl⟩
  · have hboot := boot_eq host settings h
    refine ⟨⟨fun _ => h, fun _ => ⟨_, hboot⟩⟩, fun c hc => booted_of_boot h hc, fun failure hf => ?_⟩
    rw [hboot] at hf
    cases hf

theorem boots_with_one_cell_minimal :
    (∃ c, boot (.withButtons 3) { screenWidth := -2147483648 }
        { dataCells := 1, returnCells := 0, memoryBytes := 0 } = .ok c ∧
      c.host = .withButtons 3 ∧ c.Holds "SCREEN_WIDTH" (-2147483648) ∧ c.Holds "C_WHITE" 15 ∧
      c.Holds "BUTTON_B" 32) ∧
    ∃ failure, boot (.withButtons 3) { screenWidth := -2147483648 } { dataCells := 0 } = .error failure ∧
      failure.halt = .fault (.stack (.overflow .data)) ∧ failure.host = .withButtons 3 := by
  constructor
  · obtain ⟨hiff, hbooted, -⟩ := boots_with_one_cell (.withButtons 3) { screenWidth := -2147483648 }
      { dataCells := 1, returnCells := 0, memoryBytes := 0 }
    obtain ⟨c, hc⟩ := hiff.mpr (Nat.le_refl 1)
    have hall := (hbooted c hc).constants
    have hmem : [("SCREEN_WIDTH", -2147483648), ("C_WHITE", 15), ("BUTTON_B", 32)] ⊆
        startingConstants { screenWidth := -2147483648 } := by decide +kernel
    simp only [List.cons_subset] at hmem
    exact ⟨c, hc, (hbooted c hc).host, hall _ hmem.1, hall _ hmem.2.1, hall _ hmem.2.2.1⟩
  · obtain ⟨-, -, hfailed⟩ :=
      boots_with_one_cell (.withButtons 3) { screenWidth := -2147483648 } { dataCells := 0 }
    obtain ⟨failure, hboot⟩ := boot_starved (.withButtons 3) { screenWidth := -2147483648 }
      (show ({ dataCells := 0 } : Limits).dataCells = 0 from rfl)
    exact ⟨failure, hboot, hfailed failure hboot⟩

end Console

end Handheld
