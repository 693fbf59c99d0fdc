/-
  Handheld.Proofs.Structure — a definition as the tree of its control structures.

  `Reads` is the grammar: which phrases are the text of which body. `Spot.read` reads phrases
  one by one and keeps the place in the tree, the body so far of the innermost structure and
  what stands around it; it is what the compiler does without the code. The two agree: the
  phrases of a body are read, wherever they stand, as that body (`Reads.readAll`).
-/

import Handheld.Engine.Compilation

namespace Handheld

/-- What stands between `:` and `;`, by its structure. -/
inductive Body where
  | empty
  | seq (a b : Body)
  | word (xt : Nat)
  | literal (v : Cell)
  | string (use : StringUse) (text : String)
  | recurse
  | exit
  | ifThen (yes : Body)
  | ifElse (yes no : Body)
  | beginUntil (body : Body)
  | beginAgain (body : Body)
  | beginWhile (test body : Body)
  | doLoop (body : Body)
  | doPlusLoop (body : Body)
  deriving DecidableEq

/-- The structures that a part of a definition stands in, the innermost first, each with what
    came before it and the parts of it that are complete. -/
inductive Outer where
  | top
  | if_ (outer : Outer) (before : Body)
  | else_ (outer : Outer) (before yes : Body)
  | begin_ (outer : Outer) (before : Body)
  | while_ (outer : Outer) (before test : Body)
  | do_ (outer : Outer) (before : Body)
  deriving DecidableEq

/-- A place in a definition: what stands around it, and the part it is in so far. -/
structure Spot where
  outer : Outer
  body : Body
  deriving DecidableEq

namespace Spot

/-- The place a definition begins at. -/
def start : Spot := ⟨.top, .empty⟩

/-- The place after one more piece of the same part. -/
def snoc (z : Spot) (piece : Body) : Spot := ⟨z.outer, .seq z.body piece⟩

/-- The place after a control word other than `;`, where it fits. -/
def control : Control → Spot → Option Spot
  | .if_, ⟨o, b⟩ => some ⟨.if_ o b, .empty⟩
  | .else_, ⟨.if_ o c, b⟩ => some ⟨.else_ o c b, .empty⟩
  | .then_, ⟨.if_ o c, b⟩ => some ⟨o, .seq c (.ifThen b)⟩
  | .then_, ⟨.else_ o c yes, b⟩ => some ⟨o, .seq c (.ifElse yes b)⟩
  | .begin_, ⟨o, b⟩ => some ⟨.begin_ o b, .empty⟩
  | .until_, ⟨.begin_ o c, b⟩ => some ⟨o, .seq c (.beginUntil b)⟩
  | .again_, ⟨.begin_ o c, b⟩ => some ⟨o, .seq c (.beginAgain b)⟩
  | .while_, ⟨.begin_ o c, b⟩ => some ⟨.while_ o c b, .empty⟩
  | .repeat_, ⟨.while_ o c test, b⟩ => some ⟨o, .seq c (.beginWhile test b)⟩
  | .do_, ⟨o, b⟩ => some ⟨.do_ o b, .empty⟩
  | .loop_, ⟨.do_ o c, b⟩ => some ⟨o, .seq c (.doLoop b)⟩
  | .plusLoop, ⟨.do_ o c, b⟩ => some ⟨o, .seq c (.doPlusLoop b)⟩
  | .recurse, z => some (z.snoc .recurse)
  | .exit, z => some (z.snoc .exit)
  | _, _ => none

variable {σ : Type}

/-- The place after a phrase, where it fits. -/
def read (d : Dictionary σ) (z : Spot) : Phrase → Option Spot
  | .word t =>
    match d.sense? t.text with
    | some (.word xt) => some (z.snoc (.word xt))
    | some (.literal v) => some (z.snoc (.literal v))
    | none => none
  | .control k _ => control k z
  | .define _ _ _ => none
  | .text _ _ none => none
  | .text u _ (some text) => some (z.snoc (.string u text))
  | .comment _ => some z

def readAll (d : Dictionary σ) (z : Spot) : List Phrase → Option Spot
  | [] => some z
  | p :: ps => (z.read d p).bind fun z => z.readAll d ps

theorem readAll_append (d : Dictionary σ) (z : Spot) (ps qs : List Phrase) :
    z.readAll d (ps ++ qs) = (z.readAll d ps).bind fun z => z.readAll d qs := by
  induction ps generalizing z with
  | nil => rfl
  | cons p ps ih =>
    rw [List.cons_append, readAll, readAll]
    rcases z.read d p with - | z'
    · rfl
    · exact ih z'

/-- A semicolon is in no part of a definition. -/
theorem ne_semicolon_of_readAll {d : Dictionary σ} {z z' : Spot} {ps : List Phrase}
    (h : z.readAll d ps = some z')
    {p : Phrase} (hp : p ∈ ps) {t : Token} : p ≠ .control .semicolon t := by
  induction ps generalizing z with
  | nil => cases hp
  | cons q ps ih =>
    obtain ⟨z₁, hz, hrest⟩ := Option.bind_eq_some_iff.mp h
    rcases List.mem_cons.mp hp with rfl | hp
    · rintro rfl
      cases hz
    · exact ih hrest hp

end Spot

/-! ## Every piece of a structure -/

/-- Every word, literal, string, `recurse` and `exit` of the body satisfies `P`, which is told
    the number of loops around it. -/
def Body.Each (P : Nat → Body → Prop) (loops : Nat) : Body → Prop
  | .empty => True
  | .seq a b => a.Each P loops ∧ b.Each P loops
  | .word xt => P loops (.word xt)
  | .literal v => P loops (.literal v)
  | .string u text => P loops (.string u text)
  | .recurse => P loops .recurse
  | .exit => P loops .exit
  | .ifThen yes => yes.Each P loops
  | .ifElse yes no => yes.Each P loops ∧ no.Each P loops
  | .beginUntil body => body.Each P loops
  | .beginAgain body => body.Each P loops
  | .beginWhile test body => test.Each P loops ∧ body.Each P loops
  | .doLoop body => body.Each P (loops + 1)
  | .doPlusLoop body => body.Each P (loops + 1)

/-- The number of loops around the part that is being read. -/
def Outer.loops : Outer → Nat
  | .top => 0
  | .if_ o _ | .else_ o _ _ | .begin_ o _ | .while_ o _ _ => o.loops
  | .do_ o _ => o.loops + 1

def Outer.Each (P : Nat → Body → Prop) : Outer → Prop
  | .top => True
  | .if_ o before | .begin_ o before | .do_ o before => o.Each P ∧ before.Each P o.loops
  | .else_ o before b | .while_ o before b => o.Each P ∧ before.Each P o.loops ∧ b.Each P o.loops

def Spot.Each (P : Nat → Body → Prop) (z : Spot) : Prop := z.outer.Each P ∧ z.body.Each P z.outer.loops

theorem Body.Each.imp {P Q : Nat → Body → Prop} (h : ∀ n b, P n b → Q n b) {loops : Nat} {b : Body}
    (hb : b.Each P loops) : b.Each Q loops := by
  induction b generalizing loops with
  | empty => trivial
  | word | literal | string | recurse | exit => exact h _ _ hb
  | seq a b iha ihb | ifElse a b iha ihb | beginWhile a b iha ihb => exact ⟨iha hb.1, ihb hb.2⟩
  | ifThen b ih | beginUntil b ih | beginAgain b ih | doLoop b ih | doPlusLoop b ih => exact ih hb

theorem Body.Each.and {P Q : Nat → Body → Prop} {loops : Nat} {b : Body} (hp : b.Each P loops)
    (hq : b.Each Q loops) : b.Each (fun n b => P n b ∧ Q n b) loops := by
  induction b generalizing loops with
  | empty => trivial
  | word | literal | string | recurse | exit => exact ⟨hp, hq⟩
  | seq a b iha ihb | ifElse a b iha ihb | beginWhile a b iha ihb => exact ⟨iha hp.1 hq.1, ihb hp.2 hq.2⟩
  | ifThen b ih | beginUntil b ih | beginAgain b ih | doLoop b ih | doPlusLoop b ih => exact ih hp hq

theorem Spot.each_snoc {P : Nat → Body → Prop} {z : Spot} {piece : Body} (hz : z.Each P)
    (hp : piece.Each P z.outer.loops) : (z.snoc piece).Each P := ⟨hz.1, hz.2, hp⟩

/-- A control word moves pieces into a structure and adds none, `recurse` and `exit` apart. -/
theorem Spot.each_control {P : Nat → Body → Prop} {z z' : Spot} {k : Control} (hz : z.Each P)
    (h : Spot.control k z = some z') (hr : k = .recurse → P z.outer.loops .recurse)
    (he : k = .exit → P z.outer.loops .exit) :
    z'.Each P := by
  obtain ⟨o, b⟩ := z
  cases k
  case recurse => cases h; exact each_snoc hz (hr rfl)
  case exit => cases h; exact each_snoc hz (he rfl)
  all_goals
    clear hr he
    cases o <;> cases h <;> simp_all [Spot.Each, Outer.Each, Body.Each, Outer.loops]

variable {σ : Type}

/-- The piece that an ordinary word is compiled to. -/
def Sense.piece : Sense → Body
  | .word xt => .word xt
  | .literal v => .literal v

/-- The piece that a phrase adds to the part it stands in. -/
def Phrase.piece? (d : Dictionary σ) : Phrase → Option Body
  | .word t => (d.sense? t.text).map Sense.piece
  | .text u _ (some body) => some (.string u body)
  | .control .recurse _ => some .recurse
  | .control .exit _ => some .exit
  | _ => none

theorem Spot.read_word (d : Dictionary σ) (z : Spot) (t : Token) :
    z.read d (.word t) = (d.sense? t.text).map fun r => z.snoc r.piece := by
  rw [Spot.read]
  rcases d.sense? t.text with - | ⟨xt⟩ | ⟨v⟩ <;> rfl

theorem Spot.read_of_piece? {d : Dictionary σ} {p : Phrase} {b : Body} (h : p.piece? d = some b) (z : Spot) :
    z.read d p = some (z.snoc b) := by
  cases p with
  | word t =>
    obtain ⟨r, hr, rfl⟩ := Option.map_eq_some_iff.mp h
    rw [read_word, hr]
    rfl
  | control k t => cases k <;> cases h <;> rfl
  | define | comment => cases h
  | text u t body =>
    cases body with
    | none => cases h
    | some text => cases h; rfl

/-- What holds of all pieces read so far, and of the one that a phrase adds, holds behind the
    phrase. -/
theorem Spot.each_read {P : Nat → Body → Prop} {d : Dictionary σ} {z z' : Spot} {p : Phrase} (hz : z.Each P)
    (hr : z.read d p = some z') (hp : ∀ b, p.piece? d = some b → b.Each P z.outer.loops) : z'.Each P := by
  cases h : p.piece? d with
  | some b =>
    rw [read_of_piece? h] at hr
    cases hr
    exact each_snoc hz (hp b h)
  | none =>
    cases p with
    | word t =>
      rw [read_word, Option.map_eq_none_iff.mp h] at hr
      cases hr
    | control k t =>
      exact each_control hz hr (fun hk => by rw [hk] at h; cases h) fun hk => by rw [hk] at h; cases h
    | define => cases hr
    | text u t body =>
      cases body with
      | none => cases hr
      | some text => cases h
    | comment closed => cases hr; exact hz

/-! ## The grammar -/

/-- The phrases are the text of the body, each word standing for what it means in the
    dictionary. -/
inductive Reads (d : Dictionary σ) : List Phrase → Body → Prop
  | empty : Reads d [] .empty
  | comment {ps : List Phrase} {b : Body} (closed : Bool) : Reads d ps b → Reads d (ps ++ [.comment closed]) b
  | word {ps : List Phrase} {b : Body} {t : Token} {xt : Nat} :
      Reads d ps b → d.sense? t.text = some (.word xt) →
      Reads d (ps ++ [.word t]) (.seq b (.word xt))
  | literal {ps : List Phrase} {b : Body} {t : Token} {v : Cell} :
      Reads d ps b → d.sense? t.text = some (.literal v) →
      Reads d (ps ++ [.word t]) (.seq b (.literal v))
  | string {ps : List Phrase} {b : Body} (u : StringUse) (t : Token) (text : String) : Reads d ps b →
      Reads d (ps ++ [.text u t (some text)]) (.seq b (.string u text))
  | recurse {ps : List Phrase} {b : Body} (t : Token) : Reads d ps b →
      Reads d (ps ++ [.control .recurse t]) (.seq b .recurse)
  | exit {ps : List Phrase} {b : Body} (t : Token) : Reads d ps b →
      Reads d (ps ++ [.control .exit t]) (.seq b .exit)
  | ifThen {ps qs : List Phrase} {b yes : Body} (t u : Token) : Reads d ps b → Reads d qs yes →
      Reads d (ps ++ .control .if_ t :: qs ++ [.control .then_ u]) (.seq b (.ifThen yes))
  | ifElse {ps qs rs : List Phrase} {b yes no : Body} (t u v : Token) :
      Reads d ps b → Reads d qs yes → Reads d rs no →
      Reads d (ps ++ .control .if_ t :: qs ++ .control .else_ u :: rs ++ [.control .then_ v])
        (.seq b (.ifElse yes no))
  | beginUntil {ps qs : List Phrase} {b body : Body} (t u : Token) : Reads d ps b → Reads d qs body →
      Reads d (ps ++ .control .begin_ t :: qs ++ [.control .until_ u]) (.seq b (.beginUntil body))
  | beginAgain {ps qs : List Phrase} {b body : Body} (t u : Token) : Reads d ps b → Reads d qs body →
      Reads d (ps ++ .control .begin_ t :: qs ++ [.control .again_ u]) (.seq b (.beginAgain body))
  | beginWhile {ps qs rs : List Phrase} {b test body : Body} (t u v : Token) :
      Reads d ps b → Reads d qs test →
      Reads d rs body →
      Reads d (ps ++ .control .begin_ t :: qs ++ .control .while_ u :: rs ++ [.control .repeat_ v])
        (.seq b (.beginWhile test body))
  | doLoop {ps qs : List Phrase} {b body : Body} (t u : Token) : Reads d ps b → Reads d qs body →
      Reads d (ps ++ .control .do_ t :: qs ++ [.control .loop_ u]) (.seq b (.doLoop body))
  | doPlusLoop {ps qs : List Phrase} {b body : Body} (t u : Token) : Reads d ps b → Reads d qs body →
      Reads d (ps ++ .control .do_ t :: qs ++ [.control .plusLoop u]) (.seq b (.doPlusLoop body))

namespace Reads

variable {d : Dictionary σ}

/-- The phrases of a body, read at the beginning of a part, are read as the body. -/
theorem readAll {ps : List Phrase} {b : Body} (h : Reads d ps b) (o : Outer) :
    Spot.readAll d ⟨o, .empty⟩ ps = some ⟨o, b⟩ := by
  induction h generalizing o with
  | empty => rfl
  | comment closed _ ih => simp [Spot.readAll_append, Spot.readAll, ih, Spot.read]
  | word _ hs ih => simp [Spot.readAll_append, Spot.readAll, ih, Spot.read, Spot.snoc, hs]
  | literal _ hs ih => simp [Spot.readAll_append, Spot.readAll, ih, Spot.read, Spot.snoc, hs]
  | string u t text _ ih => simp [Spot.readAll_append, Spot.readAll, ih, Spot.read, Spot.snoc]
  | recurse t _ ih => simp [Spot.readAll_append, Spot.readAll, ih, Spot.read, Spot.snoc, Spot.control]
  | exit t _ ih => simp [Spot.readAll_append, Spot.readAll, ih, Spot.read, Spot.snoc, Spot.control]
  | ifThen t u _ _ ihb ihy => simp [Spot.readAll_append, Spot.readAll, ihb, ihy, Spot.read, Spot.control]
  | ifElse t u v _ _ _ ihb ihy ihn =>
    simp [Spot.readAll_append, Spot.readAll, ihb, ihy, ihn, Spot.read, Spot.control]
  | beginUntil t u _ _ ihb ih => simp [Spot.readAll_append, Spot.readAll, ihb, ih, Spot.read, Spot.control]
  | beginAgain t u _ _ ihb ih => simp [Spot.readAll_append, Spot.readAll, ihb, ih, Spot.read, Spot.control]
  | beginWhile t u v _ _ _ ihb iht ih =>
    simp [Spot.readAll_append, Spot.readAll, ihb, iht, ih, Spot.read, Spot.control]
  | doLoop t u _ _ ihb ih => simp [Spot.readAll_append, Spot.readAll, ihb, ih, Spot.read, Spot.control]
  | doPlusLoop t u _ _ ihb ih => simp [Spot.readAll_append, Spot.readAll, ihb, ih, Spot.read, Spot.control]

end Reads

end Handheld
