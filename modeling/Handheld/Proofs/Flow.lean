/-
  Handheld.Proofs.Flow — where the instructions of a body stand, and where each of them leads.

  The code of a body is a row of instructions (`Body.sites`), each in some number of loops. They
  stand one behind the other (`Row.sweeps`), each with its bytes at its address
  (`Row.stands`). Wherever an instruction may lead, to the next one, to the target of its
  branch, into a loop or out of one, there is an instruction of the same body, with as many
  loops around it as have been entered, or the end of the body (`Body.flows`).
-/

import Handheld.Proofs.Stepping

namespace Handheld

variable {σ : Type}

/-! ## Instructions in their places -/

/-- An instruction at its address, in that many loops. -/
structure Site where
  addr : Nat
  loops : Nat
  instr : Instr

namespace Body

/-- The instructions of the body at `a`, in the order they stand. -/
def sites (xt a loops : Nat) : Body → List Site
  | .empty => []
  | .seq b c => b.sites xt a loops ++ c.sites xt (a + b.size) loops
  | .word w => [⟨a, loops, .word w⟩]
  | .literal v => [⟨a, loops, .literal v⟩]
  | .string u text => [⟨a, loops, .string u text⟩]
  | .recurse => [⟨a, loops, .word xt⟩]
  | .exit => [⟨a, loops, .plain .exit⟩]
  | .ifThen yes => ⟨a, loops, .branch .jumpIfZero (a + 8 + yes.size)⟩ :: yes.sites xt (a + 8) loops
  | .ifElse yes no =>
    ⟨a, loops, .branch .jumpIfZero (a + 8 + yes.size + 8)⟩ :: (yes.sites xt (a + 8) loops ++
      ⟨a + 8 + yes.size, loops, .branch .jump (a + 8 + yes.size + 8 + no.size)⟩ ::
        no.sites xt (a + 8 + yes.size + 8) loops)
  | .beginUntil body => body.sites xt a loops ++ [⟨a + body.size, loops, .branch .jumpIfZero a⟩]
  | .beginAgain body => body.sites xt a loops ++ [⟨a + body.size, loops, .branch .jump a⟩]
  | .beginWhile test body =>
    test.sites xt a loops ++
        ⟨a + test.size, loops, .branch .jumpIfZero (a + test.size + 8 + body.size + 8)⟩ ::
      (body.sites xt (a + test.size + 8) loops ++ [⟨a + test.size + 8 + body.size, loops, .branch .jump a⟩])
  | .doLoop body =>
    ⟨a, loops, .plain .enterLoop⟩ :: (body.sites xt (a + 4) (loops + 1) ++
      [⟨a + 4 + body.size, loops + 1, .branch .loop (a + 4)⟩])
  | .doPlusLoop body =>
    ⟨a, loops, .plain .enterLoop⟩ :: (body.sites xt (a + 4) (loops + 1) ++
      [⟨a + 4 + body.size, loops + 1, .branch .plusLoop (a + 4)⟩])

end Body

/-- The instructions stand one behind the other, from `a` to `e`. -/
def Row (a : Nat) : List Site → Nat → Prop
  | [], e => a = e
  | s :: ss, e => s.addr = a ∧ Row (a + s.instr.size) ss e

namespace Row

variable {a b e : Nat} {ss ts : List Site}

theorem append (h : Row a ss b) (g : Row b ts e) : Row a (ss ++ ts) e := by
  induction ss generalizing a with
  | nil => rw [show a = b from h]; exact g
  | cons s ss ih => exact ⟨h.1, ih h.2⟩

/-- What holds at the beginning and is kept by each instruction holds all the way. -/
theorem sweeps {P : Nat → Prop} (h : Row a ss e)
    (hstep : ∀ s ∈ ss, P s.addr → P (s.addr + s.instr.size)) (ha : P a) :
    (∀ s ∈ ss, P s.addr) ∧ P e := by
  induction ss generalizing a with
  | nil => exact ⟨by simp, h ▸ ha⟩
  | cons s ss ih =>
    obtain ⟨rfl, h⟩ := h
    obtain ⟨hall, he⟩ :=
      ih h (fun t ht => hstep t (List.mem_cons_of_mem s ht)) (hstep s List.mem_cons_self ha)
    exact ⟨List.forall_mem_cons.mpr ⟨ha, hall⟩, he⟩

theorem stands {lo : Nat} {code : List UInt8} (h : Row a ss e)
    (hs : Stands lo code a (ss.flatMap (·.instr.bytes))) :
    ∀ s ∈ ss, Stands lo code s.addr s.instr.bytes := by
  induction ss generalizing a with
  | nil => simp
  | cons s ss ih =>
    obtain ⟨rfl, h⟩ := h
    rw [List.flatMap_cons] at hs
    have hrest := hs.right
    rw [Instr.length_bytes] at hrest
    exact List.forall_mem_cons.mpr ⟨hs.left, ih h hrest⟩

end Row

namespace Body

theorem flatMap_sites (xt a loops : Nat) (b : Body) :
    (b.sites xt a loops).flatMap (·.instr.bytes) = b.bytes xt a := by
  induction b generalizing a loops <;> simp_all [bytes, sites]

theorem row_sites (xt a loops : Nat) (b : Body) : Row a (b.sites xt a loops) (a + b.size) := by
  induction b generalizing a loops with
  | empty => rfl
  | word | literal | string | recurse | exit => exact ⟨rfl, rfl⟩
  | seq b c ihb ihc =>
    rw [size, ← Nat.add_assoc]
    exact (ihb a loops).append (ihc _ loops)
  | ifThen yes ih =>
    rw [size, ← Nat.add_assoc]
    exact ⟨rfl, ih _ loops⟩
  | ifElse yes no ihy ihn =>
    rw [size, ← Nat.add_assoc, ← Nat.add_assoc, ← Nat.add_assoc]
    exact ⟨rfl, (ihy _ loops).append ⟨rfl, ihn _ loops⟩⟩
  | beginUntil body ih | beginAgain body ih =>
    rw [size, ← Nat.add_assoc]
    exact (ih a loops).append ⟨rfl, rfl⟩
  | beginWhile test body iht ih =>
    rw [size, ← Nat.add_assoc, ← Nat.add_assoc, ← Nat.add_assoc]
    exact (iht a loops).append ⟨rfl, (ih _ loops).append ⟨rfl, rfl⟩⟩
  | doLoop body ih | doPlusLoop body ih =>
    rw [size, ← Nat.add_assoc, ← Nat.add_assoc]
    exact ⟨rfl, (ih _ _).append ⟨rfl, rfl⟩⟩

end Body

/-! ## Where an instruction leads -/

/-- Wherever the instruction at `a`, in that many loops, may lead, `P` holds. A return leaves
    no loop open. -/
def Instr.Flows (P : Nat → Nat → Prop) (a loops : Nat) : Instr → Prop
  | .plain .exit => loops = 0
  | .plain _ => P (a + 4) (loops + 1)
  | .branch .jump target => P target loops
  | .branch .jumpIfZero target => P target loops ∧ P (a + 8) loops
  | .branch _ target => ∃ outer, loops = outer + 1 ∧ P target loops ∧ P (a + 8) outer
  | .word _ => P (a + 4) loops
  | .literal _ => P (a + 8) loops
  | .string u text => P (a + (Instr.string u text).size) loops

/-- What a definition may be made of: words that are tame, and returns outside of loops. -/
def Body.Tame (d : Dictionary σ) : Nat → Body → Prop
  | _, .word xt => ∃ e, d.get? xt = some e ∧ e.kind.isTame = true
  | loops, .exit => loops = 0
  | _, _ => True

namespace Body

variable {P : Nat → Nat → Prop} {xt a loops : Nat}

/-- The beginning of a body is an instruction of it, or its end. -/
theorem enters {b : Body} (hsites : ∀ s ∈ b.sites xt a loops, P s.addr s.loops)
    (hend : P (a + b.size) loops) : P a loops := by
  induction b generalizing a loops with
  | empty => exact hend
  | word | literal | string | recurse | exit | ifThen | ifElse | doLoop | doPlusLoop =>
    exact hsites _ List.mem_cons_self
  | seq b c ihb ihc =>
    simp only [sites, List.forall_mem_append] at hsites
    rw [size, ← Nat.add_assoc] at hend
    exact ihb hsites.1 (ihc hsites.2 hend)
  | beginUntil body ih | beginAgain body ih =>
    simp only [sites, List.forall_mem_append, List.forall_mem_cons] at hsites
    exact ih hsites.1 hsites.2.1
  | beginWhile test body iht ih =>
    simp only [sites, List.forall_mem_append, List.forall_mem_cons] at hsites
    exact iht hsites.1 hsites.2.1

/-- An instruction of a body leads to an instruction of the body, or to its end. -/
theorem flows {d : Dictionary σ} {b : Body} (hsites : ∀ s ∈ b.sites xt a loops, P s.addr s.loops)
    (hend : P (a + b.size) loops) (htame : b.Each (Tame d) loops) :
    ∀ s ∈ b.sites xt a loops, s.instr.Flows P s.addr s.loops := by
  induction b generalizing a loops with
  | empty => simp [sites]
  | word | literal | string | recurse => exact List.forall_mem_cons.mpr ⟨hend, by simp⟩
  | exit => exact List.forall_mem_cons.mpr ⟨htame, by simp⟩
  | seq b c ihb ihc =>
    simp only [sites, List.forall_mem_append] at hsites ⊢
    rw [size, ← Nat.add_assoc] at hend
    exact ⟨ihb hsites.1 (enters hsites.2 hend) htame.1, ihc hsites.2 hend htame.2⟩
  | ifThen yes ih =>
    simp only [sites, List.forall_mem_cons] at hsites ⊢
    rw [size, ← Nat.add_assoc] at hend
    exact ⟨⟨hend, enters hsites.2 hend⟩, ih hsites.2 hend htame⟩
  | ifElse yes no ihy ihn =>
    simp only [sites, List.forall_mem_cons, List.forall_mem_append] at hsites ⊢
    rw [size, ← Nat.add_assoc, ← Nat.add_assoc, ← Nat.add_assoc] at hend
    obtain ⟨-, hyes, hjump, hno⟩ := hsites
    exact ⟨⟨enters hno hend, enters hyes hjump⟩, ihy hyes hjump htame.1, hend, ihn hno hend htame.2⟩
  | beginUntil body ih =>
    simp only [sites, List.forall_mem_append, List.forall_mem_cons] at hsites ⊢
    rw [size, ← Nat.add_assoc] at hend
    obtain ⟨hbody, htest, -⟩ := hsites
    exact ⟨ih hbody htest htame, ⟨enters hbody htest, hend⟩, by simp⟩
  | beginAgain body ih =>
    simp only [sites, List.forall_mem_append, List.forall_mem_cons] at hsites ⊢
    obtain ⟨hbody, hback, -⟩ := hsites
    exact ⟨ih hbody hback htame, enters hbody hback, by simp⟩
  | beginWhile test body iht ih =>
    simp only [sites, List.forall_mem_append, List.forall_mem_cons] at hsites ⊢
    rw [size, ← Nat.add_assoc, ← Nat.add_assoc, ← Nat.add_assoc] at hend
    obtain ⟨htest, hflag, hbody, hback, -⟩ := hsites
    exact ⟨iht htest hflag htame.1, ⟨hend, enters hbody hback⟩, ih hbody hback htame.2,
        enters htest hflag, by simp⟩
  | doLoop body ih | doPlusLoop body ih =>
    simp only [sites, List.forall_mem_append, List.forall_mem_cons] at hsites ⊢
    rw [size, ← Nat.add_assoc, ← Nat.add_assoc] at hend
    obtain ⟨-, hbody, hagain, -⟩ := hsites
    exact ⟨enters hbody hagain, ih hbody hagain htame, ⟨loops, rfl, enters hbody hagain, hend⟩, by simp⟩

end Body

/-! ## Completed definitions -/

/-- What is known of an instruction wherever it stands: its word is there, and its target is an
    address. -/
def Instr.Known (d : Dictionary σ) : Instr → Prop
  | .word xt => xt ≤ Cell.maxNat ∧ ∃ e, d.get? xt = some e ∧ e.kind.isTame = true
  | .plain p => p = .enterLoop ∨ p = .exit
  | .branch p target => p.isBranch = true ∧ target ≤ Cell.maxNat
  | .string _ text => (Text.utf8 text).length ≤ Cell.maxNat
  | .literal _ => True

/-- The instruction that a piece is. -/
def Body.instr? (xt : Nat) : Body → Option Instr
  | .word w => some (.word w)
  | .literal v => some (.literal v)
  | .string u text => some (.string u text)
  | .recurse => some (.word xt)
  | .exit => some (.plain .exit)
  | _ => none

/-- What holds of the instruction of each piece, of branches to addresses up to `n` and of the
    entry of a loop holds of every instruction of a body that ends before `n`. -/
theorem Body.forall_sites {Q : Instr → Prop} {xt a n loops : Nat} {b : Body} (hn : a + b.size ≤ n)
    (hpieces : b.Each (fun _ piece => ∀ i, piece.instr? xt = some i → Q i) loops)
    (hloop : Q (.plain .enterLoop))
    (hbranch : ∀ p target, p.isBranch = true → target ≤ n → Q (.branch p target)) :
    ∀ s ∈ b.sites xt a loops, Q s.instr := by
  induction b generalizing a loops with
  | empty => simp [sites]
  | word | literal | string | recurse | exit => exact List.forall_mem_cons.mpr ⟨hpieces _ rfl, by simp⟩
  | seq b c ihb ihc =>
    simp only [size] at hn
    simp only [sites, List.forall_mem_append]
    exact ⟨ihb (by omega) hpieces.1, ihc (by omega) hpieces.2⟩
  | ifThen yes ih =>
    simp only [size] at hn
    simp only [sites, List.forall_mem_cons]
    exact ⟨hbranch _ _ rfl (by omega), ih (by omega) hpieces⟩
  | ifElse yes no ihy ihn =>
    simp only [size] at hn
    simp only [sites, List.forall_mem_cons, List.forall_mem_append]
    exact ⟨hbranch _ _ rfl (by omega), ihy (by omega) hpieces.1, hbranch _ _ rfl (by omega),
        ihn (by omega) hpieces.2⟩
  | beginUntil body ih | beginAgain body ih =>
    simp only [size] at hn
    simp only [sites, List.forall_mem_append, List.forall_mem_cons]
    exact ⟨ih (by omega) hpieces, hbranch _ _ rfl (by omega), by simp⟩
  | beginWhile test body iht ih =>
    simp only [size] at hn
    simp only [sites, List.forall_mem_append, List.forall_mem_cons]
    exact ⟨iht (by omega) hpieces.1, hbranch _ _ rfl (by omega), ih (by omega) hpieces.2,
        hbranch _ _ rfl (by omega), by simp⟩
  | doLoop body ih | doPlusLoop body ih =>
    simp only [size] at hn
    simp only [sites, List.forall_mem_append, List.forall_mem_cons]
    exact ⟨hloop, ih (by omega) hpieces, hbranch _ _ rfl (by omega), by simp⟩

theorem Body.known_sites {d : Dictionary σ} {xt a loops : Nat} {b : Body}
    (hxt : ∃ e, d.get? xt = some e ∧ e.kind.isTame = true)
    (hmax : a + b.size ≤ Cell.maxNat) (hfits : b.Each (Fits xt) loops) (htame : b.Each (Tame d) loops) :
    ∀ s ∈ b.sites xt a loops, s.instr.Known d := by
  refine forall_sites hmax ((hfits.and htame).imp fun n piece h i hi => ?_) (.inl rfl)
      fun p target hp ht => ⟨hp, ht⟩
  obtain ⟨hf, ht⟩ := h
  cases piece <;> cases hi
  case word w => exact ⟨hf, ht⟩
  case literal v => trivial
  case string u text => exact hf
  case recurse => exact ⟨hf, hxt⟩
  case exit => exact .inr rfl

/-- A completed definition: its token, where its code begins, and its body. -/
structure Code where
  xt : Nat
  entry : Nat
  body : Body

namespace Code

/-- The body with the return at its end. -/
def whole (c : Code) : Body := .seq c.body .exit

def bytes (c : Code) : List UInt8 := c.whole.bytes c.xt c.entry

def sites (c : Code) : List Site := c.whole.sites c.xt c.entry 0

/-- Where its code ends. -/
def stop (c : Code) : Nat := c.entry + c.whole.size

theorem stop_eq (c : Code) : c.stop = c.entry + c.bytes.length := by
  rw [bytes, Body.length_bytes]
  rfl

/-- What the compiler made sure of. -/
structure Sound (d : Dictionary σ) (c : Code) : Prop where
  token : ∃ e, d.get? c.xt = some e ∧ e.kind = .compiled c.entry
  aligned : 4 ∣ c.entry
  fits : c.body.Each (Body.Fits c.xt) 0
  tame : c.body.Each (Body.Tame d) 0

variable {d : Dictionary σ} {c : Code} {m : Memory}

theorem mem_exit (c : Code) : ⟨c.entry + c.body.size, 0, .plain .exit⟩ ∈ c.sites :=
  List.mem_append_right _ List.mem_cons_self

/-- What holds at every instruction of a definition holds where it begins. -/
theorem enters {P : Nat → Nat → Prop} (hP : ∀ s ∈ c.sites, P s.addr s.loops) : P c.entry 0 :=
  Body.enters (fun s hs => hP s (List.mem_append_left _ hs)) (hP _ c.mem_exit)

/-- What holds at every instruction of a definition holds wherever one leads. -/
theorem Sound.flows (h : c.Sound d) {P : Nat → Nat → Prop} (hP : ∀ s ∈ c.sites, P s.addr s.loops) {s : Site}
    (hs : s ∈ c.sites) : s.instr.Flows P s.addr s.loops := by
  rcases List.mem_append.mp hs with hb | he
  · exact Body.flows (fun s hs => hP s (List.mem_append_left _ hs)) (hP _ c.mem_exit) h.tame s hb
  · cases List.mem_singleton.mp he
    exact rfl

theorem Sound.known (h : c.Sound d) (hc : m.Carries c.entry c.bytes) {s : Site} (hs : s ∈ c.sites) :
    s.instr.Known d := by
  have hmax := Nat.le_trans hc.inside hc.valid.here_le_maxNat
  rw [bytes, Body.length_bytes] at hmax
  obtain ⟨e, he, hk⟩ := h.token
  exact Body.known_sites ⟨e, he, by rw [hk]; rfl⟩ hmax ⟨h.fits, trivial⟩ ⟨h.tame, rfl⟩ s hs

theorem stands (c : Code) {s : Site} (hs : s ∈ c.sites) : Stands c.entry c.bytes s.addr s.instr.bytes := by
  refine (c.whole.row_sites c.xt c.entry 0).stands ?_ s hs
  rw [Body.flatMap_sites]
  exact .whole _ _

theorem Sound.dvd_addr (h : c.Sound d) {s : Site} (hs : s ∈ c.sites) : 4 ∣ s.addr :=
  ((c.whole.row_sites c.xt c.entry 0).sweeps (fun s _ hd => Nat.dvd_add hd s.instr.dvd_size) h.aligned).1 s hs

end Code

/-! ## Instruction boundaries -/

namespace Memory

/-- How many bytes the instruction at `a` takes, as its token tells. -/
def instrSize (m : Memory) (a : Nat) : Nat :=
  match (m.cellAt a).toNat?.bind (Primitive.runtime[·]?) with
  | some (_, p) =>
    if p.isBranch || p == .literal then 8
    else if p == .stringLiteral || p == .printString then 8 + wholeCells ((m.cellAt (a + 4)).toNat?.getD 0)
    else 4
  | none => 4

/-- The addresses at which instructions begin, going through the bytes from `entry` to `stop`
    one instruction after the other. -/
inductive Boundary (m : Memory) (entry stop : Nat) : Nat → Prop
  | entry : m.Boundary entry stop entry
  | next {a : Nat} : m.Boundary entry stop a → a + m.instrSize a < stop →
      m.Boundary entry stop (a + m.instrSize a)

theorem Holds.token {m : Memory} {a n : Nat} {rest : List UInt8} (h : m.Holds a (Instr.cellBytes n ++ rest))
    (hn : n ≤ Cell.maxNat) : (m.cellAt a).toNat? = some n := by
  rw [(holds_append.mp h).1.cellAt, Cell.toNat?_ofNat hn]

theorem instrSize_of_control {m : Memory} {a : Nat} {p : Primitive} {rest : List UInt8}
    (hp : p.isControl = true) (h : m.Holds a (Instr.cellBytes p.token ++ rest)) : m.instrSize a =
      if p.isBranch || p == .literal then 8
      else if p == .stringLiteral || p == .printString then 8 + wholeCells ((m.cellAt (a + 4)).toNat?.getD 0)
      else 4 := by
  obtain ⟨ht, hword⟩ := Primitive.runtime_token hp
  have hmax : p.token ≤ Cell.maxNat := Nat.le_trans (Nat.le_of_lt ht) (by decide)
  unfold instrSize
  rw [h.token hmax, Option.bind_some, List.getElem?_eq_getElem ht]
  dsimp only
  rw [hword]

/-- The bytes of an instruction tell how many they are. -/
theorem instrSize_of_holds {d : Dictionary σ} (hd : d.Rooted) {m : Memory} {a : Nat} {i : Instr}
    (hk : i.Known d) (h : m.Holds a i.bytes) : m.instrSize a = i.size := by
  cases i with
  | word xt =>
    obtain ⟨hmax, e, he, ht⟩ := hk
    have hnone : Primitive.runtime[xt]? = none := List.getElem?_eq_none (hd.le_of_tame he ht)
    have h' : m.Holds a (Instr.cellBytes xt ++ []) := by rw [List.append_nil]; exact h
    unfold instrSize
    rw [h'.token hmax, Option.bind_some, hnone]
    rfl
  | plain p =>
    have h' : m.Holds a (Instr.cellBytes p.token ++ []) := by rw [List.append_nil]; exact h
    rcases hk with rfl | rfl <;> exact instrSize_of_control rfl h'
  | literal v => exact instrSize_of_control rfl h
  | branch p target =>
    rw [instrSize_of_control (Primitive.isControl_of_isBranch hk.1) h, hk.1]
    rfl
  | string u text =>
    have hlength := (holds_append.mp h).2.token hk
    have hp : (Engine.stringPrimitive u).isControl = true := by cases u <;> rfl
    rw [instrSize_of_control hp h,
      show a + 4 = a + (Instr.cellBytes (Engine.stringPrimitive u).token).length from rfl, hlength]
    cases u <;> rfl

end Memory

/-- Every instruction of a definition begins where the bytes say one begins, and ends inside. -/
theorem Code.Sound.boundary {d : Dictionary σ} {c : Code} {m : Memory} (h : c.Sound d) (hd : d.Rooted)
    (hc : m.Carries c.entry c.bytes) {s : Site} (hs : s ∈ c.sites) :
    m.Boundary c.entry c.stop s.addr ∧ s.addr + m.instrSize s.addr ≤ c.stop := by
  have hsize {t : Site} (ht : t ∈ c.sites) : m.instrSize t.addr = t.instr.size :=
    Memory.instrSize_of_holds hd (h.known hc ht) (hc.part (c.stands ht)).1
  have hend {t : Site} (ht : t ∈ c.sites) : t.addr + t.instr.size ≤ c.stop := by
    have := (c.stands ht).end_le
    rwa [Instr.length_bytes, ← c.stop_eq] at this
  have hsweep :=
    (c.whole.row_sites c.xt c.entry 0).sweeps (P := fun a => a < c.stop → m.Boundary c.entry c.stop a)
    (fun t ht hb hlt => by
      rw [← hsize ht] at hlt ⊢
      exact .next (hb (by omega)) hlt)
    (fun _ => .entry)
  have hpos := s.instr.size_pos
  have := hend hs
  exact ⟨hsweep.1 s hs (by omega), by rw [hsize hs]; exact hend hs⟩

end Handheld
