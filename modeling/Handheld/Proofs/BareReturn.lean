/-
  Handheld.Proofs.BareReturn — where the instruction pointer stands between calls.

  A host may register every instruction as a word, also those that are meant for compiled code. Named
  outside of a run, the ones that read what follows them fault (`Primitive.run_of_readsOn`). Of the
  others only the return can set the instruction pointer or clear it: it sets it when the return stack
  is deeper than the last run found it, and takes the cell on top for a place to go on at
  (`feed_ip_of_returns`, `feed_ip`). A text that fails and every call of an address clear it
  (`Awaiting.ip_request`). So between two requests it is set in exactly those sessions in which the
  last return that a text named went astray and nothing has cleared it since
  (`pointer_set_iff_adrift`).
-/

import Handheld.Proofs.EntryPoint
import Handheld.Proofs.Immediate
import Handheld.Proofs.NestedCall
import Handheld.Proofs.Upkeep

namespace Handheld

variable {σ : Type}

/-! ## Instructions outside of a run -/

namespace Machine

variable {m m' : Machine σ}

/-- The instruction pointer is where it was. -/
def SamePlace (m m' : Machine σ) : Prop := m'.ip = m.ip

theorem samePlace_partWise : PartWise (SamePlace (σ := σ)) where
  refl _ := rfl
  trans h g := g.trans h
  data _ _ _ := rfl
  memory _ _ _ := rfl
  output _ _ _ := rfl

theorem operand_of_none (h : m.ip = none) : operand m = .error .missingOperand m := by
  rw [operand, bind_of_error (getIp_of_none h)]

/-- A return that succeeds goes on above the depth that the last run began with, and there only. -/
theorem leave_ip (h : leave m = .ok () m') : m'.ip.isSome = true ↔ m.base < m.ret.depth := by
  rcases Nat.lt_or_ge m.base m.ret.depth with hlt | hle
  · rw [leave_of_lt hlt] at h
    obtain ⟨resume, m₁, -, hjump⟩ := bind_ok_iff.mp h
    obtain ⟨a, m₂, -, hset⟩ := bind_ok_iff.mp hjump
    cases hset
    exact iff_of_true rfl hlt
  · rw [leave_of_le hle] at h
    cases h
    exact iff_of_false nofun (Nat.not_lt.mpr hle)

end Machine

namespace Primitive

open Machine

/-- The instructions that read an operand or a string behind them in the code. -/
def readsOn : Primitive → Bool
  | .literal | .jump | .jumpIfZero | .loop | .plusLoop | .stringLiteral | .printString => true
  | _ => false

/-- Outside of a run nothing stands behind them, and they fault. -/
theorem run_of_readsOn {p : Primitive} (hp : p.readsOn = true) {m m' : Machine σ} (hip : m.ip = none) :
    p.run m ≠ .ok () m' := by
  have hadvance {m : Machine σ} (hip : m.ip = none) (step : Cell) :
      advanceLoop step m = .error .missingOperand m := by
    rw [advanceLoop, bind_of_error (operand_of_none hip)]
  have hstring : inlineString m = .error .missingOperand m := by
    rw [inlineString, bind_of_error (operand_of_none hip)]
  intro h
  cases p <;> cases hp
  case literal | jump | jumpIfZero =>
    rw [run, bind_of_error (operand_of_none hip)] at h
    cases h
  case loop =>
    rw [run, hadvance hip] at h
    cases h
  case plusLoop =>
    obtain ⟨step, m₁, hpop, hloop⟩ := bind_ok_iff.mp h
    have hsame : m₁.ip = m.ip := samePlace_partWise.closed.pop.of_ok hpop
    rw [hadvance (hsame.trans hip)] at hloop
    cases hloop
  case stringLiteral | printString =>
    rw [run, bind_of_error hstring] at h
    cases h

/-- All others but the return leave the place as it is. -/
theorem samePlace_run {p : Primitive} (hp : p.readsOn = false) (hexit : p ≠ .exit) :
    Keeps (SamePlace (σ := σ)) p.run := by
  have hparts := samePlace_partWise (σ := σ)
  have hc := hparts.closed
  have hreturning : Act.Returning (fun x => Keeps (SamePlace (σ := σ)) x) := returning_keeps fun _ _ _ => rfl
  by_cases hcontrol : p.isControl = true
  · obtain rfl : p = .enterLoop := by cases p <;> simp_all [readsOn, isControl]
    exact hc.bind hc.pop fun start => hc.bind hc.pop fun limit => hc.bind (hreturning.rpush limit) fun _ =>
      hreturning.rpush start
  · exact hc.run p (fun h => absurd h hcontrol) (fun _ => hreturning) fun _ =>
      storing_keeps hparts.toOrdered fun _ _ _ _ _ => rfl

end Primitive

namespace Kind

/-- Inside of a run and outside of one, only a return changes whether one is going on. -/
theorem perform_ip {k : Kind σ} (hk : k.IsPublic) (hexit : k ≠ .builtin .exit) {m m' : Machine σ}
    (hcode : m.ip = none → ∀ entry, k ≠ .compiled entry) (h : k.perform m = .ok () m') :
    m'.ip.isSome = m.ip.isSome := by
  cases k with
  | hook act => exact hk.elim
  | constant v => rw [Machine.samePlace_partWise.closed.push v |>.of_ok h]
  | native arity f => rw [(Act.Placeless.callNative arity f).ip_of_ok h]
  | compiled entry =>
    cases hip : m.ip with
    | none => exact absurd rfl (hcode hip entry)
    | some a => exact (Machine.call_upon (by rw [hip]; rfl) h).1
  | builtin p =>
    have hp : p ≠ .exit := fun heq => hexit (heq ▸ rfl)
    -- Inside of a run they all go on. Outside of one, those that would move the pointer fault.
    cases hip : m.ip with
    | some a => exact (Act.Fits.run hp).running h (by rw [hip]; rfl)
    | none =>
      cases hreads : p.readsOn with
      | true => exact absurd h (Primitive.run_of_readsOn hreads hip)
      | false => rw [(Primitive.samePlace_run hreads hp).of_ok h, hip]

end Kind

/-! ## Phrases and texts -/

namespace Engine

variable {s s' : Engine σ}

/-- The phrase is a return, named outside of any definition. -/
def Returns (s : Engine σ) (p : Phrase) : Prop :=
  s.mode = .run ∧
    ∃ t xt e, p = .word t ∧ s.dict.find? t.text = some xt ∧ s.dict.get? xt = some e ∧ e.kind = .builtin .exit

/-- The instruction pointer of the machine is where it was. -/
def Stays (s s' : Engine σ) : Prop := s'.machine.ip = s.machine.ip

theorem stays_allows : Allows (Stays (σ := σ)) Machine.SamePlace where
  refl _ := rfl
  trans h g := g.trans h
  parts := Machine.samePlace_partWise
  machine _ _ h := h
  constant _ _ _ := rfl

theorem stays_compilePhrase (d : Draft) (p : Phrase) : Keeps (Stays (σ := σ)) (compilePhrase d p) := by
  have hallows := stays_allows (σ := σ)
  have hcompiling : Compiling (σ := σ) d 0 fun x => Keeps Stays x :=
    { hallows.interpreting.toReading with
      storeCell := fun v _ => hallows.onMachine
        ((Machine.storing_keeps hallows.parts.toOrdered fun _ _ _ _ _ => rfl).storeCell _ v)
      setOpened := fun _ => .modify fun _ => rfl }
  exact hcompiling.compileAny (.modify fun _ => rfl) (fun _ _ => Nat.zero_le _) p

theorem stays_openDraft (name : String) : Keeps (Stays (σ := σ)) (openDraft name) := by
  have hallows := stays_allows (σ := σ)
  have ho := hallows.toOrdered
  have hi := hallows.interpreting
  exact .bind ho hi.getHere fun _ => .bind ho hi.align fun _ => .bind ho hi.getHere fun _ =>
      .modify fun _ => rfl

/-- A return that is named succeeds as the instruction does. -/
theorem feed_ip_of_returns {fuel : Nat} {p : Phrase} (hp : s.Returns p) (h : feed fuel p s = .ok () s') :
    s'.machine.ip.isSome = true ↔ s.machine.base < s.machine.ret.depth := by
  obtain ⟨hmode, t, xt, e, rfl, hfind, he, hkind⟩ := hp
  have hcode : ∀ entry, e.kind ≠ .compiled entry := by
    intro entry heq
    rw [hkind] at heq
    cases heq
  rw [feed_named hmode hfind, execute_performs he fun _ => hcode, hkind] at h
  obtain ⟨m, hleave, rfl⟩ := onMachine_ok h
  exact Machine.leave_ip hleave

theorem execute_ip {fuel xt : Nat} (hd : s.dict.All Kind.IsPublic)
    (hexit : ∀ e, s.dict.get? xt = some e → e.kind ≠ .builtin .exit) (h : execute fuel xt s = .ok () s') :
    s'.machine.ip.isSome = s.machine.ip.isSome := by
  cases he : s.dict.get? xt with
  | none =>
    rw [execute, bind_of_ok (get_apply s), bind_of_ok (get_apply s), he, Dictionary.perform, he] at h
    cases h
  | some e =>
    by_cases hrun : s.machine.ip = none ∧ ∃ entry, e.kind = .compiled entry
    · obtain ⟨hip, entry, hcode⟩ := hrun
      rw [execute_compiled he hcode hip] at h
      obtain ⟨m, hend, rfl⟩ := runCode_ok h
      rw [hip, hend]
    · have hcode : s.machine.ip = none → ∀ entry, e.kind ≠ .compiled entry :=
        fun hip entry heq => hrun ⟨hip, entry, heq⟩
      rw [execute_performs he hcode] at h
      obtain ⟨m, hperform, rfl⟩ := onMachine_ok h
      exact Kind.perform_ip (hd xt e he) (hexit e he) hcode hperform

/-- Every other phrase that succeeds leaves the pointer set if it was set, and clear if it was
    clear. -/
theorem feed_ip {fuel : Nat} {p : Phrase} (hd : s.dict.All Kind.IsPublic) (hp : ¬ s.Returns p)
    (h : feed fuel p s = .ok () s') : s'.machine.ip.isSome = s.machine.ip.isSome := by
  cases hmode : s.mode with
  | compile d =>
    rw [feed_of_compile hmode] at h
    rw [(stays_compilePhrase d p).of_ok h]
  | run =>
    by_cases hfound : ∃ t xt, p = .word t ∧ s.dict.find? t.text = some xt
    · obtain ⟨t, xt, rfl, hfind⟩ := hfound
      rw [feed_named hmode hfind] at h
      exact execute_ip hd (fun e he hkind => hp ⟨hmode, t, xt, e, rfl, hfind, he, hkind⟩) h
    · -- What else a phrase can do, also to begin a definition, is no matter of the pointer.
      rw [feed_of_run hmode] at h
      have hstays : s.Stays s' := by
        by_cases hcolon : ∃ t name, p = .define .colon t name
        · obtain ⟨t, name, rfl⟩ := hcolon
          have hallows := stays_allows (σ := σ)
          exact (Keeps.bind hallows.toOrdered (hallows.interpreting.needName t name) stays_openDraft).of_ok h
        · rcases stays_allows.interpretPhrase fuel (fun t name hp => hcolon ⟨t, name, hp⟩) s with
            ⟨t, xt, hp, hfind, -⟩ | hstays
          · exact absurd ⟨t, xt, hp, hfind⟩ hfound
          · rw [stateAfter_ok h] at hstays
            exact hstays
      rw [hstays]

/-- A return is named somewhere in the text. -/
def TextReturns (fuel : Nat) : List Phrase → Engine σ → Prop
  | [], _ => False
  | p :: ps, s => s.Returns p ∨ ∃ s₁, feed fuel p s = .ok () s₁ ∧ TextReturns fuel ps s₁

/-- The last return that is named in the text finds more on the return stack than the last run
    began with, and so goes on at an address that no call has left there. -/
def TextStrays (fuel : Nat) : List Phrase → Engine σ → Prop
  | [], _ => False
  | p :: ps, s => ∃ s₁, feed fuel p s = .ok () s₁ ∧
    (TextStrays fuel ps s₁ ∨ ¬ TextReturns fuel ps s₁ ∧ s.Returns p ∧ s.machine.base < s.machine.ret.depth)

/-- Whatever a text does, the words of the dictionary stay public. -/
theorem public_upkeep : Upkeep (σ := σ) Kind.IsPublic fun _ _ => True where
  refl _ := trivial
  trans _ _ := trivial
  inside _ _ _ _ _ _ := trivial
  output _ _ _ := trivial
  perform _ _ := trivial
  compiled _ := trivial
  constant _ := trivial

/-- After a text that succeeds the pointer is set if its last return strayed, or if it names none
    and the pointer was set before. -/
theorem feedAll_ip {fuel : Nat} {ps : List Phrase} (hd : s.dict.All Kind.IsPublic)
    (h : feedAll fuel ps s = .ok () s') :
    s'.machine.ip.isSome = true ↔
      TextStrays fuel ps s ∨ ¬ TextReturns fuel ps s ∧ s.machine.ip.isSome = true := by
  induction ps generalizing s with
  | nil =>
    cases h
    simp [TextStrays, TextReturns]
  | cons p ps ih =>
    obtain ⟨⟨⟩, s₁, hp, hlater⟩ := bind_ok_iff.mp h
    have hd₁ : s₁.dict.All Kind.IsPublic := ((upholds_feed public_upkeep fuel p).of_ok hp hd).1
    have hstrays : TextStrays fuel (p :: ps) s ↔ TextStrays fuel ps s₁ ∨
        ¬ TextReturns fuel ps s₁ ∧ s.Returns p ∧ s.machine.base < s.machine.ret.depth := by
      simp [TextStrays, hp]
    have hreturns : TextReturns fuel (p :: ps) s ↔ s.Returns p ∨ TextReturns fuel ps s₁ := by
      simp [TextReturns, hp]
    rw [ih hd₁ hlater, hstrays, hreturns]
    by_cases hreturn : s.Returns p
    · rw [feed_ip_of_returns hreturn hp]
      simp [hreturn]
    · rw [feed_ip hd hreturn hp]
      simp [hreturn]

/-- After a fault the pointer is clear. -/
theorem ip_recovering {act : Session σ Unit} :
    (stateAfter (recovering act) s).machine.ip.isSome = true ↔ ∃ s', act s = .ok () s' ∧
    s'.machine.ip.isSome = true := by
  unfold stateAfter
  rw [recovering_eq]
  cases act s with
  | ok _ s' => simp
  | error e s' => exact iff_of_false nofun (by simp)

end Engine

/-! ## Sessions -/

/-- What a host may ask of an engine: to add a native or an instruction under a name of its own, to
    read a text, to call an address. -/
inductive HostRequest (σ : Type) where
  | native (name : String) (arity : Nat) (f : Native σ)
  | builtin (name : String) (p : Primitive)
  | interpret (fuel : Nat) (label text : String)
  | call (fuel addr : Nat)

namespace HostRequest

def act : HostRequest σ → Session σ Unit
  | .native name arity f => Engine.register name (.native arity f)
  | .builtin name p => Engine.register name (.builtin p)
  | .interpret fuel label text => Engine.interpret fuel label text
  | .call fuel addr => Engine.callAddress fuel addr

/-- It reads a text that succeeds and strays. -/
def Strays : HostRequest σ → Engine σ → Prop
  | .interpret fuel label text, s =>
    (∃ s', Engine.interpret fuel label text s = .ok () s') ∧
        s.TextStrays fuel (Source.ofText label text).phrases
  | .native _ _ _, _ | .builtin _ _, _ | .call _ _, _ => False

/-- It registers a word, or reads a text that succeeds and names no return. -/
def Abstains : HostRequest σ → Engine σ → Prop
  | .interpret fuel label text, s =>
    (∃ s', Engine.interpret fuel label text s = .ok () s') ∧
        ¬ s.TextReturns fuel (Source.ofText label text).phrases
  | .native _ _ _, _ | .builtin _ _, _ => True
  | .call _ _, _ => False

end HostRequest

namespace Engine

variable {s s₀ : Engine σ}

/-- The engine after the requests, each granted or failed. -/
def hosted (s : Engine σ) (rs : List (HostRequest σ)) : Engine σ := rs.foldl (fun s r => stateAfter r.act s) s

theorem hosted_concat (s : Engine σ) (rs : List (HostRequest σ)) (r : HostRequest σ) :
    s.hosted (rs ++ [r]) = stateAfter r.act (s.hosted rs) := List.foldl_concat ..

/-- What holds between two requests. -/
structure Awaiting (s : Engine σ) : Prop where
  mode : s.mode = .run
  words : s.dict.All Kind.IsPublic

theorem Awaiting.register (hs : s.Awaiting) (name : String) (kind : Kind σ) (hk : kind.IsPublic) :
    (stateAfter (register name kind) s).Awaiting ∧
      (stateAfter (register name kind) s).machine = s.machine := by
  unfold Engine.register
  split
  · exact ⟨⟨hs.mode, hs.words.push name hk⟩, rfl⟩
  · exact ⟨hs, rfl⟩

theorem Awaiting.request (hs : s.Awaiting) (r : HostRequest σ) : (stateAfter r.act s).Awaiting := by
  cases r with
  | native name arity f => exact (hs.register name (.native arity f) trivial).1
  | builtin name p => exact (hs.register name (.builtin p) trivial).1
  | interpret fuel label text =>
    exact ⟨mode_interpret fuel label text s, (upholds_interpret public_upkeep fuel label text s hs.words).1⟩
  | call fuel addr =>
    refine ⟨?_, (upholds_callAddress public_upkeep fuel addr s hs.words).1⟩
    obtain ⟨m, hm⟩ := stateAfter_callAddress fuel addr hs.mode
    show (stateAfter (callAddress fuel addr) s).mode = .run
    rw [hm]
    exact hs.mode

/-- A request leaves the pointer set if it strays, or if it was set and the request abstains. A text
    that fails and every call of an address leave it clear. -/
theorem Awaiting.ip_request (hs : s.Awaiting) (r : HostRequest σ) :
    (stateAfter r.act s).machine.ip.isSome = true ↔ r.Strays s ∨ r.Abstains s ∧
    s.machine.ip.isSome = true := by
  cases r with
  | native name arity f =>
    show (stateAfter (Engine.register name (.native arity f)) s).machine.ip.isSome = true ↔ _
    rw [(hs.register name (.native arity f) trivial).2]
    simp [HostRequest.Strays, HostRequest.Abstains]
  | builtin name p =>
    show (stateAfter (Engine.register name (.builtin p)) s).machine.ip.isSome = true ↔ _
    rw [(hs.register name (.builtin p) trivial).2]
    simp [HostRequest.Strays, HostRequest.Abstains]
  | interpret fuel label text =>
    show (stateAfter (interpret fuel label text) s).machine.ip.isSome = true ↔ _
    cases hact : interpret fuel label text s with
    | ok _ s' =>
      rw [stateAfter_ok hact, feedAll_ip hs.words (interpret_ok_iff.mp hact).1]
      simp [HostRequest.Strays, HostRequest.Abstains, hact]
    | error e s' =>
      refine iff_of_false (fun hset => ?_) (by simp [HostRequest.Strays, HostRequest.Abstains, hact])
      obtain ⟨t, hok, -⟩ := ip_recovering.mp hset
      rw [interpret, recovering_eq, hok] at hact
      cases hact
  | call fuel addr =>
    refine iff_of_false (fun hset => ?_) (by simp [HostRequest.Strays, HostRequest.Abstains])
    obtain ⟨s', hrun, hset⟩ := ip_recovering.mp hset
    obtain ⟨m, hend, rfl⟩ := runCode_ok hrun
    rw [show ({ s with machine := m } : Engine σ).machine.ip = none from hend] at hset
    cases hset

/-- In the session a text strayed, and since then every request abstained. -/
inductive Adrift (s₀ : Engine σ) : List (HostRequest σ) → Prop
  | strayed {rs : List (HostRequest σ)} {r : HostRequest σ} : r.Strays (s₀.hosted rs) → Adrift s₀ (rs ++ [r])
  | abstained {rs : List (HostRequest σ)} {r : HostRequest σ} :
    Adrift s₀ rs → r.Abstains (s₀.hosted rs) → Adrift s₀ (rs ++ [r])

theorem not_adrift_nil : ¬ s₀.Adrift [] := by
  intro h
  generalize hall : ([] : List (HostRequest σ)) = all at h
  cases h <;> exact List.append_ne_nil_of_right_ne_nil _ (List.cons_ne_nil _ _) hall.symm

theorem adrift_concat {rs : List (HostRequest σ)} {r : HostRequest σ} :
    s₀.Adrift (rs ++ [r]) ↔ r.Strays (s₀.hosted rs) ∨ r.Abstains (s₀.hosted rs) ∧ s₀.Adrift rs := by
  constructor
  · intro h
    generalize hall : rs ++ [r] = all at h
    cases h with
    | strayed hstrays =>
      obtain ⟨rfl, hlast⟩ := List.append_inj' hall rfl
      cases hlast
      exact .inl hstrays
    | abstained hadrift habstains =>
      obtain ⟨rfl, hlast⟩ := List.append_inj' hall rfl
      cases hlast
      exact .inr ⟨habstains, hadrift⟩
  · rintro (hstrays | ⟨habstains, hadrift⟩)
    · exact .strayed hstrays
    · exact .abstained hadrift habstains

theorem Awaiting.hosted (hs : s₀.Awaiting) (rs : List (HostRequest σ)) : (s₀.hosted rs).Awaiting := by
  induction rs using List.reverseRecOn with
  | nil => exact hs
  | append_singleton rs r ih =>
    rw [hosted_concat]
    exact ih.request r

theorem Awaiting.ip_hosted (hs : s₀.Awaiting) (hip : s₀.machine.ip = none) (rs : List (HostRequest σ)) :
    (s₀.hosted rs).machine.ip.isSome = true ↔ s₀.Adrift rs := by
  induction rs using List.reverseRecOn with
  | nil => exact iff_of_false (by rw [show (s₀.hosted []).machine.ip = none from hip]; nofun) not_adrift_nil
  | append_singleton rs r ih => rw [hosted_concat, (hs.hosted rs).ip_request r, ih, adrift_concat]

theorem new_awaiting (limits : Limits) (host : σ) (words : List (String × Primitive)) :
    (new limits host words).Awaiting where
  mode := rfl
  words := .initial (fun _ => trivial) words

/-- After every session the instruction pointer is clear, whatever instructions the host has
    registered, unless the session is adrift; then, and only then, it is set. A compiled word named
    next runs to its end, just as a call of its address does, and in a session adrift it is only
    entered. -/
theorem pointer_set_iff_adrift (limits : Limits) (host : σ) (words : List (String × Primitive))
    (rs : List (HostRequest σ)) :
    (((new limits host words).hosted rs).machine.ip ≠ none ↔ (new limits host words).Adrift rs) ∧
    ∀ fuel label name entry, Name.isWord name = true → Reserved.ofText? name = none →
      ((new limits host words).hosted rs).dict.entry? name = some entry →
        (¬ (new limits host words).Adrift rs → interpret fuel label name ((new limits host words).hosted rs) =
          callAddress fuel entry ((new limits host words).hosted rs)) ∧
        ((new limits host words).Adrift rs → interpret fuel label name ((new limits host words).hosted rs) =
          recovering (onMachine (Machine.call entry)) ((new limits host words).hosted rs)) := by
  have hnew := new_awaiting limits host words
  have hs := hnew.hosted rs
  have hset : ((new limits host words).hosted rs).machine.ip ≠ none ↔ (new limits host words).Adrift rs := by
    rw [← hnew.ip_hosted rfl rs, Option.isSome_iff_ne_none]
  refine ⟨hset, fun fuel label name entry hname hreserved hentry => ?_⟩
  obtain ⟨e, hnewest, hkind⟩ := Dictionary.entry?_eq_some_iff.mp hentry
  rw [← Dictionary.find?_newest, Option.bind_eq_some_iff] at hnewest
  obtain ⟨xt, hfind, he⟩ := hnewest
  constructor
  · intro hclear
    have hip := not_not.mp (hset.not.mpr hclear)
    exact interpret_word hs.mode hip hname hreserved hfind he hkind
  · intro hadrift
    have hip := hset.mpr hadrift
    rw [interpret_named hs.mode hname hreserved hfind, recovering_eq, recovering_eq,
      execute_performs he fun hnone => absurd hnone hip, hkind]
    rfl

/-- A host registers the return as a word, and a text names it with a cell on the return stack. -/
def returning : List (HostRequest Unit) :=
  [.builtin "back" .exit, .interpret 10 "back" ": seven 7 ; 0 >r back"]

/-- The same, and then the host calls an address. -/
def returned : List (HostRequest Unit) := returning ++ [.call 10 0]

theorem pointer_set_iff_adrift_returned :
    fresh.Adrift returning ∧ ¬ fresh.Adrift returned ∧ (fresh.hosted returned).dict.entry? "seven" = some 0 ∧
    interpret 10 "seven" "seven" (fresh.hosted returned) = callAddress 10 0 (fresh.hosted returned) := by
  have hstates : (fresh.hosted returning).machine.ip ≠ none ∧ (fresh.hosted returned).machine.ip = none ∧
      (fresh.hosted returned).dict.entry? "seven" = some 0 := by decide +kernel
  obtain ⟨hset, hclear, hentry⟩ := hstates
  obtain ⟨hiff, -⟩ := pointer_set_iff_adrift {} () Primitive.words returning
  obtain ⟨hiff', hruns⟩ := pointer_set_iff_adrift {} () Primitive.words returned
  have hsettled : ¬ fresh.Adrift returned := hiff'.not.mp (not_not.mpr hclear)
  refine ⟨hiff.mp hset, hsettled, hentry, ?_⟩
  exact (hruns 10 "seven" "seven" 0 (by decide +kernel) (by decide +kernel) hentry).1 hsettled

/-- A return outside of any run leaves the pointer set after a text that succeeds. A compiled word
    named next succeeds too, but it is not run: what it pushes is missing, and a place to return to
    waits on the return stack. -/
theorem bare_return_leaves_pointer_set :
    succeeds (interpret 10 "back" ": seven 7 ; 0 >r back") (fresh.hosted [.builtin "back" .exit]) = true ∧
    (fresh.hosted returning).machine.ip = some 0 ∧
    succeeds (interpret 10 "seven" "seven") (fresh.hosted returning) = true ∧
    (stateAfter (interpret 10 "seven" "seven") (fresh.hosted returning)).machine.data.cells = #[] ∧
    (stateAfter (interpret 10 "seven" "seven") (fresh.hosted returning)).machine.ret.cells = #[0] := by
  decide +kernel

end Engine

end Handheld
