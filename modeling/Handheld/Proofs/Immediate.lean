/-
  Handheld.Proofs.Immediate — a text does the same at once as compiled and called.

  Each phrase of a text that keeps aloof of the memory and of the return stack is one
  instruction of the definition of that text. Where the phrase, taken at once, acts or runs a
  word to its end, the definition takes one step or calls the same code, which then goes side by
  side with the other run (`run_alike`). So as far as the text is read, the code of the
  definition retraces it (`Retraced`, `feedAll_retraced`), and what can be seen in the end is the
  same (`interpret_immediate_iff_compiled`).
-/

import Handheld.Proofs.Lockstep
import Handheld.Proofs.Pieces
import Mathlib.Data.List.Induction

namespace Handheld

variable {σ : Type}

/-! ## Texts that keep aloof -/

/-- A numeral, a word that keeps aloof or is one of the definitions, a string to print or a
    comment that is closed. -/
def Phrase.Aloof (d : Dictionary σ) (defs : List Code) : Phrase → Prop
  | .word t => (∃ v, d.sense? t.text = some (.literal v)) ∨
      ∃ xt, d.sense? t.text = some (.word xt) ∧ d.Admits defs xt
  | .text u _ body => u = .print ∧ body.isSome = true
  | .comment closed => closed = true
  | .control _ _ | .define _ _ _ => False

section

variable {d : Dictionary σ} {defs : List Code}

theorem Phrase.Aloof.isWhole {p : Phrase} (h : p.Aloof d defs) : p.isWhole = true := by
  cases p with
  | word | control => rfl
  | text u t body => exact h.2
  | comment closed => exact h
  | define => cases h

/-- Such a text is the text of a body. -/
theorem exists_reads {ps : List Phrase} (h : ∀ p ∈ ps, p.Aloof d defs) : ∃ b, Reads d ps b := by
  induction ps using List.reverseRecOn with
  | nil => exact ⟨.empty, .empty⟩
  | append_singleton ps p ih =>
    obtain ⟨hps, hp⟩ := List.forall_mem_append.mp h
    obtain ⟨b, hb⟩ := ih hps
    have hp := hp p List.mem_cons_self
    cases p with
    | word t =>
      rcases hp with ⟨v, hv⟩ | ⟨xt, hxt, -⟩
      · exact ⟨_, hb.literal hv⟩
      · exact ⟨_, hb.word hxt⟩
    | text u t body =>
      obtain ⟨-, hbody⟩ := hp
      obtain ⟨text, rfl⟩ := Option.isSome_iff_exists.mp hbody
      exact ⟨_, hb.string u t text⟩
    | comment closed => exact ⟨_, hb.comment closed⟩
    | control | define => cases hp

/-! ## The text of a definition -/

theorem Phrase.isWhole_relocate (g : Location → Location) (p : Phrase) :
    (p.relocate g).isWhole = p.isWhole := by
  cases p <;> rfl

theorem Spot.read_relocate (g : Location → Location) (z : Spot) (p : Phrase) :
    z.read d (p.relocate g) = z.read d p := by
  cases p with
  | word | control | define | comment => rfl
  | text u t body => cases body <;> rfl

theorem Spot.readAll_relocate (g : Location → Location) (z : Spot) (ps : List Phrase) :
    z.readAll d (ps.map (Phrase.relocate g)) = z.readAll d ps := by
  induction ps generalizing z with
  | nil => rfl
  | cons p ps ih =>
    rw [List.map_cons, readAll, readAll, read_relocate]
    congr 1
    funext z'
    exact ih z'

end

namespace Source

/-- The same text read elsewhere. -/
theorem phrases_elsewhere (l l' : Location) (text : List Char) :
    (phrases ⟨l, text⟩).map (Phrase.relocate fun _ => l) =
      (phrases ⟨l', text⟩).map (Phrase.relocate fun _ => l) :=
  phrases_beside (R := fun _ _ => True) (fun _ _ _ _ => trivial) (fun _ _ _ => rfl) ⟨rfl, trivial⟩

theorem isWhole_elsewhere {l : Location} {text : List Char}
    (h : ∀ p ∈ phrases ⟨l, text⟩, p.isWhole = true) (l' : Location) :
    ∀ p ∈ phrases ⟨l', text⟩, p.isWhole = true := by
  intro p hp
  have hmem : p.relocate (fun _ => l) ∈ (phrases ⟨l, text⟩).map (Phrase.relocate fun _ => l) := by
    rw [phrases_elsewhere l l' text]
    exact List.mem_map_of_mem hp
  obtain ⟨q, hq, heq⟩ := List.mem_map.mp hmem
  rw [← p.isWhole_relocate fun _ => l, ← heq, Phrase.isWhole_relocate]
  exact h q hq

/-- The text of a definition is a colon with the name, the phrases of the body and the
    semicolon, unless a line comment at the end of the body hides it. -/
theorem phrases_definition {label w text : String} (hw : Name.isWord w = true)
    (htext : ∀ p ∈ (ofText label text).phrases, p.isWhole = true) :
    ∃ t l, (∃ u, (ofText label (": " ++ w ++ " " ++ text ++ " ;")).phrases =
        .define .colon t (some w) :: phrases ⟨l, text.toList⟩ ++ [.control .semicolon u]) ∨
      (ofText label (": " ++ w ++ " " ++ text ++ " ;")).phrases =
        .define .colon t (some w) :: phrases ⟨l, text.toList⟩ := by
  have hblank : ∀ c ∈ [' '], Text.isBlank c = true := List.forall_mem_singleton.mpr rfl
  have hstart (rest : List Char) : ∀ c ∈ (' ' :: rest).head?, Text.isBlank c = true := by rintro _ ⟨⟩; rfl
  have hchars : (": " ++ w ++ " " ++ text ++ " ;").toList =
      ":".toList ++ ([' '] ++ (w.toList ++ ([' '] ++ (text.toList ++ [' ', ';'])))) := by
    simp [String.toList_append]
  have hcolon :=
    next_append (.start label) ":" ([' '] ++ (w.toList ++ ([' '] ++ (text.toList ++ [' ', ';']))))
    (List.forall_mem_nil _) (by decide +kernel) (hstart _)
  have hname (l : Location) := next_append l w ([' '] ++ (text.toList ++ [' ', ';'])) hblank hw (hstart _)
  have hreserved : Reserved.ofText? ":" = some (.define .colon) := by decide +kernel
  obtain ⟨t, l, hphrases⟩ : ∃ t l, (ofText label (": " ++ w ++ " " ++ text ++ " ;")).phrases =
      .define .colon t (some w) :: (extend ⟨l, text.toList⟩ [' ', ';']).phrases := by
    have hread :
        phrases ⟨.start label,
          ":".toList ++ ([' '] ++ (w.toList ++ ([' '] ++ (text.toList ++ [' ', ';']))))⟩ = _ :=
      phrases_of_next hcolon
    rw [ofText, hchars, hread]
    simp only [Phrase.read, hreserved, hname, Option.map_some]
    rw [phrases_blank_append _ _ hblank]
    exact ⟨_, _, rfl⟩
  have hsemicolon (l : Location) : ∃ u, phrases ⟨l, [' ', ';']⟩ = [.control .semicolon u] := by
    have hnext := next_append l ";" [] hblank (by decide +kernel) (by rintro _ ⟨⟩)
    have hreserved : Reserved.ofText? ";" = some (.control .semicolon) := by decide +kernel
    have hread : phrases ⟨l, [' ', ';']⟩ = _ := phrases_of_next hnext
    rw [hread]
    simp only [Phrase.read, hreserved]
    rw [phrases_of_nil rfl]
    exact ⟨_, rfl⟩
  rw [hphrases]
  refine ⟨t, l, ?_⟩
  rcases phrases_extend ⟨l, text.toList⟩ (.inr (hstart [';'])) (isWhole_elsewhere htext l)
      with hread | ⟨-, hhidden⟩
  · obtain ⟨u, hu⟩ := hsemicolon (ending ⟨l, text.toList⟩)
    left
    refine ⟨u, ?_⟩
    rw [hread, hu]
    rfl
  · right
    have hline : '\n' ∉ [' ', ';'] := by decide
    rw [hhidden, phrases_of_nil (rest_skipLine_of_not_mem hline), List.append_nil]

end Source

/-! ## Reading at once and running the code -/

theorem Act.Placeless.ip_of_ok {α : Type} {x : Act σ α} (hx : Placeless x) {m m' : Machine σ} {a : α}
    (h : x m = .ok a m') : m'.ip = m.ip := by
  have hsame := hx m m.ip m.base
  rw [show m.placed m.ip m.base = m from rfl, h] at hsame
  injection hsame with _ hm
  rw [hm]
  rfl

namespace Engine

/-- The engine between two words, unlike `s` in nothing but the data stack, the output and the
    state of the host. -/
structure Aside (s t : Engine σ) : Prop where
  engine : t = { s with machine := t.machine }
  ret : t.machine.ret = s.machine.ret
  memory : t.machine.memory = s.machine.memory
  ip : t.machine.ip = none

theorem Aside.refl {s : Engine σ} (h : s.machine.ip = none) : s.Aside s := ⟨rfl, rfl, rfl, h⟩

theorem Aside.dict {s t : Engine σ} (h : s.Aside t) : t.dict = s.dict := by rw [h.engine]

theorem Aside.mode {s t : Engine σ} (h : s.Aside t) : t.mode = s.mode := by rw [h.engine]

theorem Aside.budget {s t : Engine σ} (h : s.Aside t) : t.budget = s.budget := by rw [h.engine]

/-- The machine that runs compiled code at `a`, in another memory, where the engine is at `t`. -/
def inside (s t : Engine σ) (memory' : Memory) (a : Nat) : Machine σ :=
  (t.machine.amid s.machine.ret memory').placed (some a) s.machine.ret.depth

/-- A run from `start` retraces a reading of text that began with `s`: where the reading has come
    to an end, the run is at `next` with the same to show for it, or has failed with the same
    fault; where it has not, no more has the run after as many steps; or the run has found no
    room on the return stack. -/
inductive Retraced (s : Engine σ) (d : Dictionary σ) (memory' : Memory) (fuel : Nat) (start : Machine σ)
    (next : Nat) :
    EStateM.Result Halt (Engine σ) Unit → Prop
  | ended {t : Engine σ} {k : Nat} : s.Aside t → d.runFor k start = .ok () (s.inside t memory' next) →
      Retraced s d memory' fuel start next (.ok () t)
  | failed {f : Fault} {t : Engine σ} {k : Nat} {m : Machine σ} :
      t.mode = s.mode → d.runFor k start = .error f m →
      m.output = t.machine.output → m.host = t.machine.host →
      Retraced s d memory' fuel start next (.error (.fault f) t)
  | going {t : Engine σ} {k : Nat} {m : Machine σ} : fuel ≤ k → d.runFor k start = .ok () m →
      m.ip.isSome = true →
      Retraced s d memory' fuel start next (.error .unfinished t)
  | overflowed {r : EStateM.Result Halt (Engine σ) Unit} {k : Nat} {m : Machine σ} :
      d.runFor k start = .error (.stack (.overflow s.machine.ret.kind)) m →
      Retraced s d memory' fuel start next r

namespace Retraced

variable {s t : Engine σ} {d d' : Dictionary σ} {memory' : Memory} {fuel next : Nat} {start : Machine σ}

/-- A reading that goes on after the run has come so far. -/
theorem after {m : Machine σ} {j : Nat} {r : EStateM.Result Halt (Engine σ) Unit}
    (hj : d'.runFor j start = .ok () m)
    (h : Retraced s d' memory' fuel m next r) : Retraced s d' memory' fuel start next r := by
  have hadd (k : Nat) : d'.runFor (j + k) start = d'.runFor k m := by rw [d'.runFor_add, bind_of_ok hj]
  cases h with
  | ended ht hk => exact .ended ht ((hadd _).trans hk)
  | failed hm hk ho hh => exact .failed hm ((hadd _).trans hk) ho hh
  | going hle hk hip => exact .going (Nat.le_add_left_of_le hle) ((hadd _).trans hk) hip
  | overflowed hk => exact .overflowed ((hadd _).trans hk)

theorem bind {x y : Session σ Unit} {mid : Nat} (hx : Retraced s d' memory' fuel start mid (x t))
    (hy : ∀ u, s.Aside u → Retraced s d' memory' fuel (s.inside u memory' mid) next (y u)) :
    Retraced s d' memory' fuel start next ((x >>= fun _ => y) t) := by
  rw [bind_apply]
  generalize x t = r at hx
  cases hx with
  | ended hu hk => exact (hy _ hu).after hk
  | failed hm hk ho hh => exact .failed hm hk ho hh
  | going hle hk hip => exact .going hle hk hip
  | overflowed hk => exact .overflowed hk

/-- An act on the machine and one step of the code that does the same. -/
theorem of_step {x : Act σ Unit} {a : Nat} (ht : s.Aside t) (haloof : Act.Aloof x)
    (hplaceless : Act.Placeless x) (hstep : d'.step (s.inside t memory' a) =
      mapState (·.placed (some next) s.machine.ret.depth) (x (t.machine.amid s.machine.ret memory'))) :
    Retraced s d' memory' fuel (s.inside t memory' a) next (onMachine x t) := by
  have hrun : d'.runFor 1 (s.inside t memory' a) = _ := (d'.runFor_one rfl).trans hstep
  rw [haloof] at hrun
  rw [onMachine_eq]
  rcases e : x t.machine with ⟨_, m⟩ | ⟨f, m⟩
  · rw [e] at hrun
    obtain ⟨hret, hmemory⟩ := haloof.of_ok e
    refine .ended ⟨?_, hret.trans ht.ret, hmemory.trans ht.memory, ?_⟩ hrun
    · rw [ht.engine]
    · exact (hplaceless.ip_of_ok e).trans ht.ip
  · rw [e] at hrun
    refine .failed ?_ hrun rfl rfl
    rw [ht.engine]

end Retraced

/-- An engine outside of a definition, without a budget, with definitions in its memory that are
    in `memory'` as well, and whose dictionary goes on as `d`. -/
structure Setting (s : Engine σ) (defs : List Code) (d : Dictionary σ) (memory' : Memory) : Prop where
  mode : s.mode = .run
  budget : s.budget = none
  rooted : s.dict.Rooted
  dict : s.dict.Extends d
  library : s.dict.Library defs s.machine.memory
  carries : ∀ c ∈ defs, memory'.Carries c.entry c.bytes

section

variable {s t : Engine σ} {defs : List Code} {d : Dictionary σ} {memory' : Memory} {fuel a : Nat}

/-- A definition that is run to its end, and a call of it. -/
theorem Retraced.call (hset : s.Setting defs d memory') (ht : s.Aside t) {c : Code} (hc : c ∈ defs)
    (hmax : a + 4 ≤ Cell.maxNat)
    (hstep : d.step (s.inside t memory' a) = Machine.call c.entry (s.inside t memory' (a + 4))) :
    Retraced s d memory' fuel (s.inside t memory' a) (a + 4) (runCode fuel c.entry t) := by
  have hone : d.runFor 1 (s.inside t memory' a) = _ := (d.runFor_one rfl).trans hstep
  rcases Nat.lt_or_ge s.machine.ret.depth s.machine.ret.capacity with hroom | hroom
  · have hcall :=
      Machine.call_of_lt (t.machine.amid s.machine.ret memory') c.entry s.machine.ret.depth hmax hroom
    have hpaired : Paired defs s.machine.ret (s.machine.ret.pushed (Int32.ofNat (a + 4))) 0 t.machine.ret
        (s.machine.ret.pushed (Int32.ofNat (a + 4))) := by
      rw [ht.ret]
      exact .bottom
    have hentry : Point defs c.entry 0 := c.enters fun s hs => ⟨c, hc, s, hs, rfl, rfl⟩
    obtain ⟨j, halike, hover⟩ := run_alike hset.rooted hset.dict (by rw [ht.memory]; exact hset.library)
      hset.carries hmax hentry hpaired fuel
    have hlaunched : t.dict.runFor (t.budget.getD fuel) (t.launched c.entry) =
        s.dict.runFor fuel (t.machine.placed (some c.entry) s.machine.ret.depth) := by
      rw [launched, ht.dict, ht.budget, ht.ret, hset.budget, Option.getD_none]
    refine Retraced.after (hone.trans hcall) ?_
    rw [runCode_launched, hlaunched]
    generalize s.dict.runFor fuel (t.machine.placed (some c.entry) s.machine.ret.depth) = r at halike hover
    generalize hj : d.runFor j _ = r' at halike
    cases halike with
    | goes hm hpoint hst =>
      have hfuel : fuel ≤ j := by
        rcases hover with hover | hover
        · cases hover
        · omega
      simp only [Machine.ip_placed, Option.isSome_some, if_true, ht.budget, hset.budget]
      exact .going hfuel hj rfl
    | returns hm hret =>
      simp only [Machine.ip_placed, Option.isSome_none, Bool.false_eq_true, if_false]
      refine .ended ⟨?_, hret, hm.trans ht.memory, rfl⟩ hj
      rw [ht.engine]
    | fails ho hh =>
      exact .failed ht.mode hj ho hh
    | overflows => exact .overflowed hj
  · have hcall :=
      Machine.call_of_le (t.machine.amid s.machine.ret memory') c.entry s.machine.ret.depth hmax hroom
    exact .overflowed (hone.trans hcall)

/-- A word, taken at once, and its token in code. -/
theorem Retraced.word (hset : s.Setting defs d memory') (ht : s.Aside t) {lo xt : Nat} {code : List UInt8}
    (hcode : memory'.Carries lo code) (hx : xt ≤ Cell.maxNat) (hxt : s.dict.Admits defs xt)
    (hs : Stands lo code a (Instr.word xt).bytes) :
    Retraced s d memory' fuel (s.inside t memory' a) (a + 4) (execute fuel xt t) := by
  obtain ⟨e, he, hk⟩ := hxt
  have he' : t.dict.get? xt = some e := by rw [ht.dict]; exact he
  rcases hk with hk | ⟨c, hc, hk⟩
  · rw [execute_ordinary he' hk.isOrdinary]
    exact .of_step ht hk.perform (Kind.placeless_perform hk.isOrdinary)
      (Dictionary.step_ordinary (m := t.machine.amid _ memory') hcode hx (hset.dict.get? he) hk.isOrdinary hs)
  · have hstep : d.step (s.inside t memory' a) = e.kind.perform (s.inside t memory' (a + 4)) :=
      Dictionary.step_at (m := t.machine.amid _ memory') hcode hx hs (hset.dict.get? he)
    have hmax : a + 4 ≤ Cell.maxNat := Nat.le_trans (hcode.part hs).2 hcode.valid.here_le_maxNat
    rw [hk] at hstep
    rw [execute_compiled he' hk ht.ip]
    exact .call hset ht hc hmax hstep

theorem feedAll_singleton (fuel : Nat) (p : Phrase) : (feedAll fuel [p] : Session σ Unit) = feed fuel p := by
  funext s
  rw [feedAll, bind_apply]
  cases feed fuel p s <;> rfl

/-- The code of a text retraces the reading of it. -/
theorem feedAll_retraced (hset : s.Setting defs d memory') (ht : s.Aside t) {lo xt : Nat} {code : List UInt8}
    (hcode : memory'.Carries lo code) {ps : List Phrase} {b : Body} (hr : Reads s.dict ps b)
    (hps : ∀ p ∈ ps, p.Aloof s.dict defs) (ha : 4 ∣ a) (hfits : b.Each (Body.Fits xt) 0)
    (hs : Stands lo code a (b.bytes xt a)) :
    Retraced s d memory' fuel (s.inside t memory' a) (a + b.size) (feedAll fuel ps t) := by
  have hfeed {u : Engine σ} (hu : s.Aside u) (p : Phrase) : feed fuel p u = interpretPhrase fuel p u :=
    feed_of_run (hu.mode.trans hset.mode)
  have hd := hset.rooted.extends hset.dict
  induction hr with
  | empty => exact .ended (k := 0) ht rfl
  | comment closed _ ih =>
    rw [feedAll_comment]
    exact ih (List.forall_mem_append.mp hps).1 hfits hs
  | @word ps b w xt' _ hsense ih =>
    obtain ⟨hbefore, hp⟩ := List.forall_mem_append.mp hps
    rw [feedAll_append, Body.size, ← Nat.add_assoc]
    refine (ih hbefore hfits.1 hs.left).bind fun u hu => ?_
    have hxt : s.dict.Admits defs xt' := by
      rcases hp _ List.mem_cons_self with ⟨v, hv⟩ | ⟨_, hw, hadmits⟩
      · rw [hsense] at hv
        cases hv
      · rw [hsense] at hw
        cases hw
        exact hadmits
    rw [feedAll_singleton, hfeed hu, interpretPhrase, bind_of_ok (get_apply u), hu.dict, hsense]
    exact .word hset hu hcode hfits.2 hxt hs.afterBody
  | @literal ps b w v _ hsense ih =>
    rw [feedAll_append, Body.size, ← Nat.add_assoc]
    refine (ih (List.forall_mem_append.mp hps).1 hfits.1 hs.left).bind fun u hu => ?_
    rw [feedAll_singleton, hfeed hu, interpretPhrase, bind_of_ok (get_apply u), hu.dict, hsense]
    exact .of_step hu (.onData _) (.onData _)
        (Dictionary.step_literal (m := u.machine.amid _ memory') hcode hd hs.afterBody)
  | @string ps b use w text _ ih =>
    obtain ⟨hbefore, hp⟩ := List.forall_mem_append.mp hps
    obtain ⟨rfl, -⟩ := hp _ List.mem_cons_self
    rw [feedAll_append, Body.size, ← Nat.add_assoc]
    refine (ih hbefore hfits.1 hs.left).bind fun u hu => ?_
    have haligned : 4 ∣ a + b.size := Nat.dvd_add ha b.dvd_size
    rw [feedAll_singleton, hfeed hu]
    exact .of_step hu (.onOutput _) (.onOutput _)
      (Dictionary.step_print (m := u.machine.amid _ memory') hcode hd text haligned hs.afterBody)
  | recurse | exit | ifThen | ifElse | beginUntil | beginAgain | beginWhile | doLoop | doPlusLoop =>
    simp [Phrase.Aloof, or_imp, forall_and] at hps

end

end Engine

/-! ## What is seen of a call -/

/-- What a host sees of the machine: the cells on both stacks, the output and its own state. -/
structure Visible (σ : Type) where
  data : Array Cell
  ret : Array Cell
  output : Output
  host : σ

def Machine.visible (m : Machine σ) : Visible σ := ⟨m.data.cells, m.ret.cells, m.output, m.host⟩

/-- What is seen of a run that is over; after a fault the stacks are cleared. -/
def Dictionary.ended? : EStateM.Result Fault (Machine σ) Unit → Option (Option Fault × Visible σ)
  | .ok _ m => if m.ip.isSome then none else some (none, m.visible)
  | .error f m => some (some f, m.reset.visible)

theorem Dictionary.over_of_ended? {r : EStateM.Result Fault (Machine σ) Unit} {o : Option Fault × Visible σ}
    (h : ended? r = some o) : Over r := by
  cases r with
  | error f m => trivial
  | ok _ m =>
    rw [ended?] at h
    cases hip : m.ip with
    | none => exact hip
    | some a => simp [hip] at h

namespace Engine

/-- What is seen of a call that has come to an end: its fault, if it failed, and what it left. -/
def seen? : EStateM.Result Halt (Engine σ) Unit → Option (Option Fault × Visible σ)
  | .ok _ s => some (none, s.machine.visible)
  | .error (.fault f) s => some (some f, s.machine.visible)
  | .error .unfinished _ => none

theorem error_of_seen? {r : EStateM.Result Halt (Engine σ) Unit} {f : Fault} {v : Visible σ}
    (h : seen? r = some (some f, v)) : ∃ t, r = .error (.fault f) t := by
  cases r with
  | ok _ t => cases h
  | error e t =>
    cases e with
    | unfinished => cases h
    | fault g => cases h; exact ⟨t, rfl⟩

section

variable {s s₁ t : Engine σ} {label w text : String} {fuel : Nat}

theorem seen?_callAddress (hm : s.mode = .run) (hb : s.budget = none) (fuel entry : Nat) :
    seen? (callAddress fuel entry s) = Dictionary.ended? (s.dict.runFor fuel (s.launched entry)) := by
  rw [callAddress, recovering_eq, runCode_launched, hb, Option.getD_none]
  rcases s.dict.runFor fuel (s.launched entry) with ⟨_, m⟩ | ⟨f, m⟩
  · cases hip : m.ip with
    | none => simp [hip, seen?, Dictionary.ended?]
    | some a => simp [hip, seen?, Dictionary.ended?, overrun]
  · simp only [seen?, Dictionary.ended?]
    rw [recover_of_run (s := ⟨s.dict, m, s.mode, none⟩) hm]

theorem feed_named {t : Token} {xt : Nat} (hm : s.mode = .run) (hfind : s.dict.find? t.text = some xt) :
    feed fuel (.word t) s = execute fuel xt s := by
  have hsense : s.dict.sense? t.text = some (.word xt) := by rw [Dictionary.sense?, hfind]
  rw [feed_of_run hm, interpretPhrase, bind_of_ok (get_apply s), hsense]

/-- A text of one word runs that word. -/
theorem interpret_named {xt : Nat} (hm : s.mode = .run) (hw : Name.isWord w = true)
    (hreserved : Reserved.ofText? w = none)
    (hfind : s.dict.find? w = some xt) : interpret fuel label w s = recovering (execute fuel xt) s := by
  have hphrases : (Source.ofText label w).phrases = [.word ⟨w, .start label⟩] := by
    have hnext := Source.next_append (.start label) w [] (List.forall_mem_nil _) hw (by rintro _ ⟨⟩)
    rw [List.nil_append, List.append_nil] at hnext
    rw [Source.ofText, Source.phrases_of_next hnext]
    simp only [Phrase.read, hreserved]
    rw [Source.phrases_of_nil rfl]
    rfl
  have hfeed : feed fuel (.word ⟨w, .start label⟩) s = execute fuel xt s := feed_named hm hfind
  rw [interpret, recovering_eq, recovering_eq, hphrases, feedAll_singleton, bind_apply, hfeed]
  cases h : execute fuel xt s with
  | error f t => rfl
  | ok _ t =>
    obtain ⟨m, rfl⟩ := execute_ok h
    dsimp only
    rw [finish_of_run (s := { s with machine := m }) hm]

/-- If it is compiled code, that is a call of the code. -/
theorem interpret_word {xt entry : Nat} {e : Entry σ} (hm : s.mode = .run) (hip : s.machine.ip = none)
    (hw : Name.isWord w = true) (hreserved : Reserved.ofText? w = none) (hfind : s.dict.find? w = some xt)
    (he : s.dict.get? xt = some e) (hk : e.kind = .compiled entry) :
    interpret fuel label w s = callAddress fuel entry s := by
  rw [interpret_named hm hw hreserved hfind, callAddress, recovering_eq, recovering_eq,
    execute_compiled he hk hip]

/-- A definition that was read has the body of its text. -/
theorem defined_of_interpret {fuel : Nat} {b : Body} (hv : s.machine.memory.Valid) (hm : s.mode = .run)
    (hw : Name.isWord w = true) (hwhole : ∀ p ∈ (Source.ofText label text).phrases, p.isWhole = true)
    (hr : Spot.start.readAll s.dict (Source.ofText label text).phrases = some ⟨.top, b⟩)
    (h : interpret fuel label (": " ++ w ++ " " ++ text ++ " ;") s = .ok () s₁) : s.Defined w b s₁ := by
  obtain ⟨hread, hmode⟩ := interpret_ok_iff.mp h
  obtain ⟨t, l, hphrases⟩ := Source.phrases_definition hw hwhole
  have hbody : Spot.start.readAll s.dict (Source.phrases ⟨l, text.toList⟩) = some ⟨.top, b⟩ := by
    rw [← Spot.readAll_relocate fun _ => .start label, ← Source.phrases_elsewhere, Spot.readAll_relocate]
    exact hr
  rcases hphrases with ⟨u, hphrases⟩ | hphrases
  · rw [hphrases] at hread
    exact defined_of_readAll hv hm hbody hread
  · rw [hphrases] at hread
    obtain ⟨d, hu⟩ := underway_of_readAll hv hm hbody hread
    rw [hu.drafting.mode] at hmode
    cases hmode

/-- What is seen of a text that was read to its end is seen of a run that retraces it and then
    returns. -/
theorem Retraced.seen {d : Dictionary σ} {memory' : Memory} {start : Machine σ} {next : Nat}
    (hm : s.mode = .run) (hexit : ∀ t, d.step (s.inside t memory' next) =
      .ok () ((t.machine.amid s.machine.ret memory').placed none s.machine.ret.depth))
    (h : Retraced s d memory' fuel start next (feedAll fuel (Source.ofText label text).phrases s)) :
    (∃ o k, seen? (interpret fuel label text s) = some o ∧ Dictionary.ended? (d.runFor k start) = some o) ∨
      (seen? (interpret fuel label text s) = none ∧ ∃ k m, fuel ≤ k ∧ d.runFor k start = .ok () m ∧
        m.ip.isSome = true) ∨
      ∃ k m, d.runFor k start = .error (.stack (.overflow s.machine.ret.kind)) m := by
  rw [interpret, recovering_eq, bind_apply]
  generalize feedAll fuel (Source.ofText label text).phrases s = r at h
  cases h with
  | @ended t k ht hk =>
    left
    have hrun :
        d.runFor (k + 1) start =
          .ok () ((t.machine.amid s.machine.ret memory').placed none s.machine.ret.depth) := by
      rw [d.runFor_add, bind_of_ok hk]
      exact (d.runFor_one rfl).trans (hexit t)
    refine ⟨(none, t.machine.visible), k + 1, ?_, ?_⟩
    · dsimp only
      rw [finish_of_run (ht.mode.trans hm)]
      rfl
    · rw [hrun, Machine.visible, ht.ret]
      rfl
  | @failed f t k m hmode hk ho hh =>
    left
    refine ⟨(some f, t.machine.reset.visible), k, ?_, ?_⟩
    · dsimp only
      rw [recover_of_run (hmode.trans hm)]
      rfl
    · rw [hk, Dictionary.ended?, Machine.visible, Machine.visible, Machine.reset, Machine.reset, ho, hh]
      rfl
  | going hle hk hip => exact .inr (.inl ⟨rfl, _, _, hle, hk, hip⟩)
  | overflowed hk => exact .inr (.inr ⟨_, _, hk⟩)

/-- A word that was just defined runs its code from the beginning. -/
theorem Defined.seen?_interpret {b : Body} (hd : s.Defined w b s₁) (hm : s.mode = .run) (hb : s.budget = none)
    (hip : s.machine.ip = none) (hw : Name.isWord w = true) (hreserved : Reserved.ofText? w = none)
    (fuel : Nat) :
    seen? (interpret fuel label w s₁) =
      Dictionary.ended? (s₁.dict.runFor fuel (s.inside s s₁.machine.memory s.entry)) := by
  have hm₁ : s₁.mode = .run := by rw [hd.engine]; exact hm
  have hb₁ : s₁.budget = none := by rw [hd.engine]; exact hb
  have hip₁ : s₁.machine.ip = none := by rw [hd.engine]; exact hip
  have hfind : s₁.dict.find? w = some s.dict.size := by rw [hd.dict]; exact s.dict.find?_push w _
  have hlaunched : s₁.launched s.entry = s.inside s s₁.machine.memory s.entry := by
    rw [launched, hd.engine]
    rfl
  rw [interpret_word hm₁ hip₁ hw hreserved hfind hd.token rfl, seen?_callAddress hm₁ hb₁, hlaunched]

/-- Calls of it that come to an end end alike. -/
theorem Defined.seen?_unique {b : Body} (hd : s.Defined w b s₁) (hm : s.mode = .run) (hb : s.budget = none)
    (hip : s.machine.ip = none) (hw : Name.isWord w = true)
    (hreserved : Reserved.ofText? w = none) {j k : Nat}
    {o o' : Option Fault × Visible σ} (hj : seen? (interpret j label w s₁) = some o)
    (hk : seen? (interpret k label w s₁) = some o') : o = o' := by
  rw [hd.seen?_interpret hm hb hip hw hreserved] at hj hk
  rw [Dictionary.runFor_unique (Dictionary.over_of_ended? hj) (Dictionary.over_of_ended? hk), hk] at hj
  exact (Option.some.inj hj).symm

end

/-- A text of numerals, words that keep aloof of the memory and of the return stack, strings that
    are printed, closed comments and definitions made of these does the same at once as when it
    is compiled and called: it ends or fails, and with what, exactly as the word does. -/
theorem interpret_immediate_iff_compiled {limits : Limits} {s s₁ : Engine σ} {defs : List Code} {fuel₀ : Nat}
    {label w text : String} (hs : s.Orderly limits) (hbudget : s.budget = none)
    (hlibrary : s.dict.Library defs s.machine.memory)
    (htext : ∀ p ∈ (Source.ofText label text).phrases, p.Aloof s.dict defs)
    (hw : Name.isWord w = true) (hreserved : Reserved.ofText? w = none)
    (hdef : interpret fuel₀ label (": " ++ w ++ " " ++ text ++ " ;") s = .ok () s₁)
    (hroom : ∀ fuel t, interpret fuel label w s₁ ≠ .error (.fault (.stack (.overflow s.machine.ret.kind))) t)
    (o : Option Fault × Visible σ) :
    (∃ fuel, seen? (interpret fuel label text s) = some o) ↔ ∃ fuel,
    seen? (interpret fuel label w s₁) = some o := by
  obtain ⟨b, hreads⟩ := exists_reads htext
  have hdefined := defined_of_interpret ⟨hs.here, hs.capacity⟩ hs.mode hw (fun p hp => (htext p hp).isWhole)
    (hreads.readAll .top) hdef
  have hext := hdefined.extends
  have hset : s.Setting defs s₁.dict s₁.machine.memory :=
    ⟨hs.mode, hbudget, hs.runtime, hext, hlibrary, (hlibrary.later hext hdefined.memory).carries⟩
  have hcode : s₁.machine.memory.Carries s.entry (b.bytes s.dict.size s.entry ++ (Instr.plain .exit).bytes) :=
    hdefined.carries
  have hstands := Stands.whole s.entry (b.bytes s.dict.size s.entry ++ (Instr.plain .exit).bytes)
  have hexit (t : Engine σ) : s₁.dict.step (s.inside t s₁.machine.memory (s.entry + b.size)) =
      .ok () ((t.machine.amid s.machine.ret s₁.machine.memory).placed none s.machine.ret.depth) :=
    Dictionary.step_exit (m := t.machine.amid _ s₁.machine.memory) hcode (hset.rooted.extends hext)
        hstands.afterBody
      (Nat.le_refl _)
  have hseen (fuel : Nat) : seen? (interpret fuel label w s₁) =
      Dictionary.ended? (s₁.dict.runFor fuel (s.inside s s₁.machine.memory s.entry)) :=
    hdefined.seen?_interpret hs.mode hbudget hs.ip hw hreserved fuel
  -- However long the text is read, the code retraces it, since it never finds the return stack full.
  have hretraces (fuel : Nat) :
      (∃ o k, seen? (interpret fuel label text s) = some o ∧ seen? (interpret k label w s₁) = some o) ∨
        seen? (interpret fuel label text s) = none ∧ ∃ k m, fuel ≤ k ∧
          s₁.dict.runFor k (s.inside s s₁.machine.memory s.entry) = .ok () m ∧ m.ip.isSome = true := by
    have hretraced :
        Retraced s s₁.dict s₁.machine.memory fuel (s.inside s s₁.machine.memory s.entry) (s.entry + b.size)
        (feedAll fuel (Source.ofText label text).phrases s) :=
      feedAll_retraced hset (.refl hs.ip) hcode hreads htext (Memory.dvd_aligned _) hdefined.fits hstands.left
    rcases hretraced.seen hs.mode hexit with ⟨o, k, ho, hk⟩ | hgoing | ⟨k, m, hk⟩
    · exact .inl ⟨o, k, ho, (hseen k).trans hk⟩
    · exact .inr hgoing
    · have hfull := (hseen k).trans (congrArg Dictionary.ended? hk)
      obtain ⟨t, ht⟩ := error_of_seen? hfull
      exact absurd ht (hroom k t)
  constructor
  · rintro ⟨fuel, h⟩
    rcases hretraces fuel with ⟨o', k, ho, hk⟩ | ⟨hnone, -⟩
    · rw [h] at ho
      cases ho
      exact ⟨k, hk⟩
    · rw [h] at hnone
      cases hnone
  · rintro ⟨fuel, h⟩
    rcases hretraces fuel with ⟨o', k, ho, hk⟩ | ⟨-, k, m, hle, hk, hip⟩
    · cases hdefined.seen?_unique hs.mode hbudget hs.ip hw hreserved hk h
      exact ⟨fuel, ho⟩
    · have hover := Dictionary.over_of_ended? ((hseen fuel).symm.trans h)
      rw [← Dictionary.runFor_of_over hover hle, hk] at hover
      rw [show m.ip = none from hover] at hip
      cases hip

/-! ## An example -/

/-- The text of `climb`, which prints and counts up a number, and starts again when it comes to twelve. -/
def climbText : String := "3 0 do dup . 1+ dup 12 = if drop 0 then loop"

def climbBody : Body :=
  .seq (.seq (.seq .empty (.literal 3)) (.literal 0)) (.doLoop
    (.seq (.seq (.seq (.seq (.seq (.seq (.seq .empty (.word 39))
      (.word 69)) (.word 19)) (.word 39)) (.literal 12)) (.word 23))
      (.ifThen (.seq (.seq .empty (.word 41)) (.literal 0)))))

/-- The engine that knows `climb`. -/
def climber : Engine Unit :=
  stateAfter (interpret 0 "climb" (": " ++ "climb" ++ " " ++ climbText ++ " ;")) patient

def tenText : String := "10 climb ( and ) .\" !\" ."

/-- The engine that has compiled a text with `climb` in it. -/
def tenClimber : Engine Unit :=
  stateAfter (interpret 0 "ten" (": " ++ "ten" ++ " " ++ tenText ++ " ;")) climber

-- Evaluated together, since each of them begins with what the one before comes to.
theorem tenClimber_evaluates :
    succeeds (interpret 0 "climb" (": " ++ "climb" ++ " " ++ climbText ++ " ;")) patient = true ∧
      succeeds (interpret 0 "ten" (": " ++ "ten" ++ " " ++ tenText ++ " ;")) climber = true ∧
      succeeds (interpret 100 "ten" "ten") tenClimber = true ∧
      (stateAfter (interpret 100 "ten" "ten") tenClimber).machine.visible.output.text = "10 11 0 !1 " := by
  decide +kernel

theorem climber_defined : patient.Defined "climb" climbBody climber := by
  refine defined_of_interpret (Memory.valid_empty _) rfl ?_ ?_ ?_ (ok_of_succeeds tenClimber_evaluates.1)
  all_goals decide +kernel

theorem climber_library : climber.dict.Library [patient.coding climbBody] climber.machine.memory := by
  have hwords : (patient.dict.get? 39).any (·.kind.isAloof) = true ∧
      (patient.dict.get? 69).any (·.kind.isAloof) = true ∧
      (patient.dict.get? 19).any (·.kind.isAloof) = true ∧
      (patient.dict.get? 23).any (·.kind.isAloof) = true ∧
      (patient.dict.get? 41).any (·.kind.isAloof) = true := by
    decide +kernel
  obtain ⟨hdup, hprint, hincrement, hequal, hdrop⟩ := hwords
  have hempty : patient.dict.Library [] patient.machine.memory :=
    ⟨List.forall_mem_nil _, List.forall_mem_nil _⟩
  have admits {xt : Nat} (h : (patient.dict.get? xt).any (·.kind.isAloof) = true) :
      patient.dict.Admits [] xt :=
    Dictionary.admits_of_isAloof h []
  refine climber_defined.library hempty ?_
  exact ⟨⟨⟨trivial, trivial⟩, trivial⟩,
      ⟨⟨⟨⟨⟨⟨trivial, admits hdup⟩, admits hprint⟩, admits hincrement⟩, admits hdup⟩, trivial⟩,
    admits hequal⟩, ⟨trivial, admits hdrop⟩, trivial⟩

theorem climber_orderly : climber.Orderly { stepBudget := none } := by
  have hstable : patient.Stable { stepBudget := none } :=
    new_stable _ _ fun _ hw => Primitive.isControl_of_mem_words hw
  exact hstable.orderly_interpret rfl 0 "climb" _

theorem climber_budget : climber.budget = none := by rw [climber_defined.engine]; rfl

theorem tenText_aloof :
    ∀ p ∈ (Source.ofText "ten" tenText).phrases, p.Aloof climber.dict [patient.coding climbBody] := by
  have hphrases : (Source.ofText "ten" tenText).phrases =
      [.word ⟨"10", ⟨"ten", 1, 1⟩⟩, .word ⟨"climb", ⟨"ten", 1, 4⟩⟩, .comment true,
       .text .print ⟨".\"", ⟨"ten", 1, 18⟩⟩ (some "!"),
        .word ⟨".", ⟨"ten", 1, 24⟩⟩] := by
    decide +kernel
  have hwords : let d := (patient.dict.push "climb" (.compiled patient.entry)).2
      75 = patient.dict.size ∧ d.sense? "10" = some (.literal 10) ∧ d.sense? "climb" = some (.word 75) ∧
        d.sense? "." = some (.word 69) ∧ (d.get? 69).any (·.kind.isAloof) = true := by
    decide +kernel
  obtain ⟨hsize, hten, hclimb, hprint, haloof⟩ := hwords
  have hget : (patient.dict.push "climb" (.compiled patient.entry)).2.get? 75 =
      some ⟨.ofString "climb", .compiled patient.entry, false⟩ := by
    rw [Dictionary.get?_push, if_pos hsize]
  rw [hphrases, climber_defined.dict]
  simp only [List.forall_mem_cons]
  exact ⟨.inl ⟨_, hten⟩, .inr ⟨_, hclimb, _, hget, .inr ⟨_, List.mem_singleton_self _, rfl⟩⟩, rfl, ⟨rfl, rfl⟩,
    .inr ⟨_, hprint, Dictionary.admits_of_isAloof haloof _⟩, List.forall_mem_nil _⟩

theorem tenClimber_read :
    interpret 0 "ten" (": " ++ "ten" ++ " " ++ tenText ++ " ;") climber = .ok () tenClimber :=
  ok_of_succeeds tenClimber_evaluates.2.1

theorem seen?_ten : seen? (interpret 100 "ten" "ten" tenClimber) =
    some (none, (stateAfter (interpret 100 "ten" "ten") tenClimber).machine.visible) :=
  congrArg seen? (ok_of_succeeds tenClimber_evaluates.2.2.1)

theorem tenClimber_has_room (fuel : Nat) (t : Engine Unit) :
    interpret fuel "ten" "ten" tenClimber ≠
      .error (.fault (.stack (.overflow climber.machine.ret.kind))) t := by
  have hs := climber_orderly
  obtain ⟨b, hreads⟩ := exists_reads tenText_aloof
  have hdefined : climber.Defined "ten" b tenClimber :=
    defined_of_interpret ⟨hs.here, hs.capacity⟩ hs.mode (by decide +kernel)
        (fun p hp => (tenText_aloof p hp).isWhole)
      (hreads.readAll .top) tenClimber_read
  intro hfull
  have hsame :=
    hdefined.seen?_unique hs.mode climber_budget hs.ip (by decide +kernel) (by decide +kernel) seen?_ten
    (congrArg seen? hfull)
  cases congrArg Prod.fst hsame

theorem interpret_tenText_iff_ten :
    climber.Orderly { stepBudget := none } ∧ climber.budget = none ∧
      climber.dict.Library [patient.coding climbBody] climber.machine.memory ∧
      (∀ p ∈ (Source.ofText "ten" tenText).phrases, p.Aloof climber.dict [patient.coding climbBody]) ∧
      interpret 0 "ten" (": " ++ "ten" ++ " " ++ tenText ++ " ;") climber = .ok () tenClimber ∧
      (∀ o, (∃ fuel, seen? (interpret fuel "ten" tenText climber) = some o) ↔
        ∃ fuel, seen? (interpret fuel "ten" "ten" tenClimber) = some o) ∧
      ∃ fuel v, seen? (interpret fuel "ten" tenText climber) = some (none, v) ∧
      v.output.text = "10 11 0 !1 " := by
  have hiff :=
    interpret_immediate_iff_compiled climber_orderly climber_budget climber_library tenText_aloof
        (by decide +kernel)
    (by decide +kernel) tenClimber_read tenClimber_has_room
  obtain ⟨fuel, hseen⟩ := (hiff _).mpr ⟨100, seen?_ten⟩
  exact ⟨climber_orderly, climber_budget, climber_library, tenText_aloof, tenClimber_read, hiff, fuel,
      _, hseen,
    tenClimber_evaluates.2.2.2⟩

end Engine

end Handheld
