/-
  Handheld.Proofs.Grammar — the grammar of definitions, read from left to right.

  What is read phrase by phrase is in the grammar: the text so far is that of the structures
  still open (`ReadsUpTo`), followed by that of the part being read, and every phrase keeps it
  so (`Spot.Text.read`). So the texts that are read to the end are exactly the texts of bodies,
  each of one body only (`reads_iff_readAll`).

  `recognise` is a pushdown recogniser for definitions. It knows of an open structure which
  part of it is being read and where it was opened, and of everything else nothing. It accepts
  the texts of bodies that a `;` closes (`recognise_ok_iff`), and otherwise names the first
  phrase that cannot stand where it does.
-/

import Handheld.Proofs.Structure

namespace Handheld

variable {σ : Type}

/-! ## What is read is in the grammar -/

/-- The phrases are the text before a part that is being read: what came before each of the
    structures around it, the words that opened them and their parts that are complete. -/
inductive ReadsUpTo (d : Dictionary σ) : List Phrase → Outer → Prop
  | top : ReadsUpTo d [] .top
  | if_ {os ps : List Phrase} {o : Outer} {b : Body} (t : Token) : ReadsUpTo d os o → Reads d ps b →
      ReadsUpTo d (os ++ (ps ++ [.control .if_ t])) (.if_ o b)
  | else_ {os ps qs : List Phrase} {o : Outer} {b yes : Body} (t u : Token) :
      ReadsUpTo d os o → Reads d ps b → Reads d qs yes →
      ReadsUpTo d (os ++ (ps ++ .control .if_ t :: qs ++ [.control .else_ u])) (.else_ o b yes)
  | begin_ {os ps : List Phrase} {o : Outer} {b : Body} (t : Token) : ReadsUpTo d os o → Reads d ps b →
      ReadsUpTo d (os ++ (ps ++ [.control .begin_ t])) (.begin_ o b)
  | while_ {os ps qs : List Phrase} {o : Outer} {b test : Body} (t u : Token) :
      ReadsUpTo d os o → Reads d ps b →
      Reads d qs test →
      ReadsUpTo d (os ++ (ps ++ .control .begin_ t :: qs ++ [.control .while_ u])) (.while_ o b test)
  | do_ {os ps : List Phrase} {o : Outer} {b : Body} (t : Token) : ReadsUpTo d os o → Reads d ps b →
      ReadsUpTo d (os ++ (ps ++ [.control .do_ t])) (.do_ o b)

namespace Spot

variable {d : Dictionary σ} {z z' : Spot} {ps : List Phrase}

/-- The phrases are the text of a definition up to a place. -/
inductive Text (d : Dictionary σ) : List Phrase → Spot → Prop
  | intro {os qs : List Phrase} {o : Outer} {b : Body} : ReadsUpTo d os o → Reads d qs b →
      Text d (os ++ qs) ⟨o, b⟩

theorem Text.start : Text d [] .start := .intro .top .empty

/-- A piece more of the part that is being read. -/
theorem Text.snoc {o : Outer} {b : Body} {piece : Body} {p : Phrase} (h : Text d ps ⟨o, b⟩)
    (hp : ∀ qs, Reads d qs b → Reads d (qs ++ [p]) (.seq b piece)) :
    Text d (ps ++ [p]) ⟨o, .seq b piece⟩ := by
  obtain ⟨ho, hq⟩ := h
  rw [List.append_assoc]
  exact .intro ho (hp _ hq)

/-- A control word opens a structure, takes one to its next part, or moves a complete one into
    the part around it. -/
theorem Text.control {k : Control} (h : Text d ps z) (hk : Spot.control k z = some z') (t : Token) :
    Text d (ps ++ [.control k t]) z' := by
  obtain ⟨ho, hq⟩ := h
  rw [List.append_assoc]
  cases k
  case recurse => cases hk; exact .intro ho (.recurse t hq)
  case exit => cases hk; exact .intro ho (.exit t hq)
  case semicolon => cases hk
  case if_ => cases hk; simpa using Text.intro (.if_ t ho hq) .empty
  case begin_ => cases hk; simpa using Text.intro (.begin_ t ho hq) .empty
  case do_ => cases hk; simpa using Text.intro (.do_ t ho hq) .empty
  case else_ =>
    cases ho with
    | if_ v ho hb => cases hk; simpa using Text.intro (.else_ v t ho hb hq) .empty
    | _ => cases hk
  case while_ =>
    cases ho with
    | begin_ v ho hb => cases hk; simpa using Text.intro (.while_ v t ho hb hq) .empty
    | _ => cases hk
  case then_ =>
    cases ho with
    | if_ v ho hb => cases hk; simpa using Text.intro ho (.ifThen v t hb hq)
    | else_ v w ho hb hy => cases hk; simpa using Text.intro ho (.ifElse v w t hb hy hq)
    | _ => cases hk
  case until_ =>
    cases ho with
    | begin_ v ho hb => cases hk; simpa using Text.intro ho (.beginUntil v t hb hq)
    | _ => cases hk
  case again_ =>
    cases ho with
    | begin_ v ho hb => cases hk; simpa using Text.intro ho (.beginAgain v t hb hq)
    | _ => cases hk
  case repeat_ =>
    cases ho with
    | while_ v w ho hb ht => cases hk; simpa using Text.intro ho (.beginWhile v w t hb ht hq)
    | _ => cases hk
  case loop_ =>
    cases ho with
    | do_ v ho hb => cases hk; simpa using Text.intro ho (.doLoop v t hb hq)
    | _ => cases hk
  case plusLoop =>
    cases ho with
    | do_ v ho hb => cases hk; simpa using Text.intro ho (.doPlusLoop v t hb hq)
    | _ => cases hk

theorem Text.read {p : Phrase} (h : Text d ps z) (hp : z.read d p = some z') : Text d (ps ++ [p]) z' := by
  cases p with
  | control k t => exact h.control hp t
  | define => cases hp
  | word t =>
    rw [read_word] at hp
    obtain ⟨r, hr, rfl⟩ := Option.map_eq_some_iff.mp hp
    cases r with
    | word xt => exact h.snoc fun qs hq => .word hq hr
    | literal v => exact h.snoc fun qs hq => .literal hq hr
  | text u t body =>
    cases body with
    | none => cases hp
    | some text => cases hp; exact h.snoc fun qs hq => .string u t text hq
  | comment closed =>
    cases hp
    obtain ⟨ho, hq⟩ := h
    rw [List.append_assoc]
    exact .intro ho (.comment closed hq)

theorem Text.readAll {qs : List Phrase} (h : Text d ps z) (hq : z.readAll d qs = some z') :
    Text d (ps ++ qs) z' := by
  induction qs generalizing ps z with
  | nil => cases hq; simpa using h
  | cons q qs ih =>
    obtain ⟨z₁, hz, hrest⟩ := Option.bind_eq_some_iff.mp hq
    simpa using ih (h.read hz) hrest

end Spot

/-- A text is that of a body exactly when it is read as that body. -/
theorem reads_iff_readAll {d : Dictionary σ} {ps : List Phrase} {b : Body} :
    Reads d ps b ↔ Spot.start.readAll d ps = some ⟨.top, b⟩ := by
  refine ⟨fun h => h.readAll .top, fun h => ?_⟩
  obtain ⟨ho, hq⟩ := Spot.Text.start.readAll h
  cases ho
  exact hq

/-! ## A pushdown recogniser -/

/-- Which part of a structure is being read. -/
inductive Stage where
  | inIf
  | inElse
  | inBegin
  | inWhile
  | inDo
  deriving DecidableEq

/-- An open structure: the part of it that is being read, and where it was opened. -/
structure Pending where
  stage : Stage
  location : Location
  deriving DecidableEq

/-- The fault of a definition that ends inside the structure. -/
def Pending.unterminated (o : Pending) : Fault :=
  match o.stage with
  | .inIf | .inElse => .unterminatedControl "if" o.location
  | .inBegin | .inWhile => .unterminatedControl "begin" o.location
  | .inDo => .unterminatedControl "do" o.location

/-- The open structures after a control word other than `;`, the innermost first. There are none
    if the innermost structure does not allow the word in the part that is being read. -/
def Control.step? (l : Location) : Control → List Pending → Option (List Pending)
  | .if_, open_ => some (⟨.inIf, l⟩ :: open_)
  | .begin_, open_ => some (⟨.inBegin, l⟩ :: open_)
  | .do_, open_ => some (⟨.inDo, l⟩ :: open_)
  | .else_, ⟨.inIf, first⟩ :: outer => some (⟨.inElse, first⟩ :: outer)
  | .while_, ⟨.inBegin, first⟩ :: outer => some (⟨.inWhile, first⟩ :: outer)
  | .then_, ⟨.inIf, _⟩ :: outer => some outer
  | .then_, ⟨.inElse, _⟩ :: outer => some outer
  | .until_, ⟨.inBegin, _⟩ :: outer => some outer
  | .again_, ⟨.inBegin, _⟩ :: outer => some outer
  | .repeat_, ⟨.inWhile, _⟩ :: outer => some outer
  | .loop_, ⟨.inDo, _⟩ :: outer => some outer
  | .plusLoop, ⟨.inDo, _⟩ :: outer => some outer
  | .recurse, open_ => some open_
  | .exit, open_ => some open_
  | _, _ => none

/-- The open structures after a phrase other than `;`, or why it cannot stand there. -/
def Phrase.accept (open_ : List Pending) : Phrase → Except Fault (List Pending)
  | .control k t => (k.step? t.location open_).elim (.error (.unmatchedControl t.text t.location)) .ok
  | .define _ t _ => .error (.nestedDefinition t.text t.location)
  | .word _ | .text _ _ _ | .comment _ => .ok open_

/-- Goes through the text of the definition of `name` as far as its `;`, and gives what follows
    it; or else the fault of the first phrase that cannot stand where it does. -/
def recognise (name : String) : List Pending → List Phrase → Except Fault (List Phrase)
  | [], [] => .error (.missingSemicolon name)
  | o :: _, [] => .error o.unterminated
  | [], .control .semicolon _ :: rest => .ok rest
  | o :: _, .control .semicolon _ :: _ => .error o.unterminated
  | open_, p :: rest => (p.accept open_).bind fun open_ => recognise name open_ rest

def Phrase.isSemicolon : Phrase → Bool
  | .control .semicolon _ => true
  | _ => false

/-- The text of a definition: what comes before the first `;`. -/
def definitionText (ps : List Phrase) : List Phrase := ps.takeWhile (!·.isSemicolon)

/-- The phrase needs nothing that is missing: its word is known, its string is closed. -/
def Phrase.isReadable (d : Dictionary σ) : Phrase → Bool
  | .word t => (d.sense? t.text).isSome
  | .text _ _ body => body.isSome
  | _ => true

/-- The parts that are being read of the structures around a place. -/
def Outer.stages : Outer → List Stage
  | .top => []
  | .if_ o _ => .inIf :: o.stages
  | .else_ o _ _ => .inElse :: o.stages
  | .begin_ o _ => .inBegin :: o.stages
  | .while_ o _ _ => .inWhile :: o.stages
  | .do_ o _ => .inDo :: o.stages

theorem Phrase.isSemicolon_iff {p : Phrase} : p.isSemicolon = true ↔ ∃ t, p = .control .semicolon t := by
  cases p with
  | control k t => cases k <;> simp [isSemicolon]
  | _ => simp [isSemicolon]

theorem Phrase.ne_semicolon {p : Phrase} (hp : p.isSemicolon = false) (t : Token) :
    p ≠ .control .semicolon t := by
  rintro rfl
  cases hp

theorem definitionText_cons {p : Phrase} {ps : List Phrase} (hp : p.isSemicolon = false) :
    definitionText (p :: ps) = p :: definitionText ps :=
  List.takeWhile_cons_of_pos (by rw [hp]; rfl)

/-- The recogniser and the reader agree on which control words fit, and on the structures that
    are open afterwards. -/
theorem Control.step?_stages {k : Control} {l : Location} {z : Spot} {open_ : List Pending}
    (h : open_.map (·.stage) = z.outer.stages) :
    (k.step? l open_).map (·.map (·.stage)) = (Spot.control k z).map (·.outer.stages) := by
  obtain ⟨o, b⟩ := z
  cases open_ with
  | nil =>
    cases o with
    | top => cases k <;> rfl
    | _ => cases h
  | cons p open_ =>
    obtain ⟨stage, first⟩ := p
    cases o with
    | top => cases h
    | _ =>
      injection h with hs h
      cases hs
      cases k <;> simp_all [step?, Spot.control, Spot.snoc, Outer.stages]

section

variable {d : Dictionary σ} {name : String} {z : Spot} {open_ : List Pending} {p : Phrase}

theorem recognise_cons (hp : p.isSemicolon = false) (open_ : List Pending) (rest : List Phrase) :
    recognise name open_ (p :: rest) = (p.accept open_).bind fun open_ => recognise name open_ rest := by
  cases p with
  | control k t =>
    cases k
    case semicolon => cases hp
    all_goals cases open_ <;> rfl
  | _ => cases open_ <;> rfl

/-- A phrase that is read is accepted. -/
theorem Phrase.accept_of_read {z' : Spot} (h : open_.map (·.stage) = z.outer.stages)
    (hr : z.read d p = some z') :
    ∃ next, p.accept open_ = .ok next ∧ next.map (·.stage) = z'.outer.stages := by
  cases p with
  | control k t =>
    have hs := Control.step?_stages (k := k) (l := t.location) h
    rw [show Spot.control k z = some z' from hr, Option.map_some] at hs
    obtain ⟨next, hn, hstages⟩ := Option.map_eq_some_iff.mp hs
    exact ⟨next, by rw [accept, hn]; rfl, hstages⟩
  | define => cases hr
  | word t =>
    rw [Spot.read_word] at hr
    obtain ⟨r, -, rfl⟩ := Option.map_eq_some_iff.mp hr
    exact ⟨open_, rfl, h⟩
  | text u t body =>
    cases body with
    | none => cases hr
    | some text => cases hr; exact ⟨open_, rfl, h⟩
  | comment closed => cases hr; exact ⟨open_, rfl, h⟩

/-- One that is not read, though nothing it needs is missing, is not. -/
theorem Phrase.accept_of_read_none (h : open_.map (·.stage) = z.outer.stages) (hp : p.isReadable d = true)
    (hr : z.read d p = none) : ∃ f, p.accept open_ = .error f := by
  cases p with
  | control k t =>
    have hs := Control.step?_stages (k := k) (l := t.location) h
    rw [show Spot.control k z = none from hr, Option.map_none, Option.map_eq_none_iff] at hs
    exact ⟨_, by rw [accept, hs]; rfl⟩
  | define => exact ⟨_, rfl⟩
  | word t =>
    rw [Spot.read_word, Option.map_eq_none_iff] at hr
    rw [isReadable, hr] at hp
    cases hp
  | text u t body =>
    cases body with
    | none => cases hp
    | some text => cases hr
  | comment closed => cases hr

/-- Up to the first `;` a text is read at a place exactly when nothing is read but it. -/
theorem Spot.readAll_to_semicolon {t : Token} {ps rest : List Phrase} :
    (∃ body u b, .control .semicolon t :: ps = body ++ .control .semicolon u :: rest ∧
      z.readAll d body = some ⟨.top, b⟩) ↔
      z.outer = .top ∧ ps = rest := by
  constructor
  · rintro ⟨body, u, b, hps, hr⟩
    cases body with
    | nil =>
      cases hps
      cases hr
      exact ⟨rfl, rfl⟩
    | cons q body =>
      injection hps with hq
      exact absurd hq.symm (ne_semicolon_of_readAll hr List.mem_cons_self)
  · obtain ⟨o, b⟩ := z
    rintro ⟨rfl, rfl⟩
    exact ⟨[], t, b, rfl, rfl⟩

/-- From a place on, the recogniser accepts what is read up to a `;` outside of all structures. -/
theorem recognise_from_iff {ps rest : List Phrase} (h : open_.map (·.stage) = z.outer.stages)
    (hps : ∀ p ∈ definitionText ps, p.isReadable d = true) :
    recognise name open_ ps = .ok rest ↔
      ∃ body u b, ps = body ++ .control .semicolon u :: rest ∧ z.readAll d body = some ⟨.top, b⟩ := by
  induction ps generalizing z open_ with
  | nil => cases open_ <;> simp [recognise]
  | cons p ps ih =>
    by_cases hp : p.isSemicolon = true
    · obtain ⟨t, rfl⟩ := Phrase.isSemicolon_iff.mp hp
      rw [Spot.readAll_to_semicolon]
      obtain ⟨o, b⟩ := z
      cases open_ with
      | nil => cases o <;> cases h; simp [recognise]
      | cons _ _ =>
        cases o with
        | top => cases h
        | _ => simp [recognise]
    · have hp : p.isSemicolon = false := by simpa using hp
      rw [definitionText_cons hp, List.forall_mem_cons] at hps
      rw [recognise_cons hp]
      constructor
      · intro hok
        cases hr : z.read d p with
        | none =>
          obtain ⟨f, hf⟩ := Phrase.accept_of_read_none h hps.1 hr
          rw [hf] at hok
          cases hok
        | some z' =>
          obtain ⟨next, hn, hs⟩ := Phrase.accept_of_read h hr
          rw [hn] at hok
          obtain ⟨body, u, b, rfl, hbody⟩ := (ih hs hps.2).mp hok
          exact ⟨p :: body, u, b, rfl, by rw [Spot.readAll, hr]; exact hbody⟩
      · rintro ⟨body, u, b, hbody, hr⟩
        cases body with
        | nil =>
          cases hbody
          cases hp
        | cons q body =>
          injection hbody with hq hbody
          subst hq
          obtain ⟨z', hz, hrest⟩ := Option.bind_eq_some_iff.mp hr
          obtain ⟨next, hn, hs⟩ := Phrase.accept_of_read h hz
          rw [hn]
          exact (ih hs hps.2).mpr ⟨body, u, b, hbody, hrest⟩

/-- The recogniser accepts exactly the texts of bodies that a `;` closes. -/
theorem recognise_ok_iff {ps rest : List Phrase} (hps : ∀ p ∈ definitionText ps, p.isReadable d = true) :
    recognise name [] ps = .ok rest ↔
      ∃ body u b, ps = body ++ .control .semicolon u :: rest ∧ Reads d body b := by
  simp only [reads_iff_readAll]
  exact recognise_from_iff rfl hps

/-- The text is that of a body up to a semicolon outside of all structures. -/
def Grammatical (d : Dictionary σ) (ps : List Phrase) : Prop :=
  ∃ body u rest b, ps = body ++ .control .semicolon u :: rest ∧ Reads d body b

theorem not_grammatical_of_error {ps : List Phrase} {f : Fault}
    (hps : ∀ p ∈ definitionText ps, p.isReadable d = true)
    (h : recognise name [] ps = .error f) : ¬ Grammatical d ps := by
  rintro ⟨body, u, rest, b, hsplit, hreads⟩
  have hok : recognise name [] ps = .ok rest := (recognise_ok_iff hps).mpr ⟨body, u, b, hsplit, hreads⟩
  rw [h] at hok
  cases hok

end

end Handheld
