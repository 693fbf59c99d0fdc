/-
  Handheld.Proofs.Passage — running a part of a definition.

  A part of a body stands at an address of its own (`Body.Inside`), and as long as the
  definition is retained its bytes are there (`Defined.retained_part`), for the machine that
  comes there to run. `Reaches` says that a run gets from one address to another, and how many
  steps it takes.
-/

import Handheld.Proofs.Safety
import Handheld.Proofs.Simulation

namespace Handheld

variable {σ : Type}

/-! ## Parts of a body -/

/-- The body `c`, at `x`, is a part of the body at `a`. -/
inductive Body.Inside (c : Body) (x : Nat) : Body → Nat → Prop
  | whole : Inside c x c x
  | first {b e : Body} {a : Nat} : Inside c x b a → Inside c x (.seq b e) a
  | second {b e : Body} {a : Nat} : Inside c x e (a + b.size) → Inside c x (.seq b e) a
  | ifThen {yes : Body} {a : Nat} : Inside c x yes (a + 8) → Inside c x (.ifThen yes) a
  | ifYes {yes no : Body} {a : Nat} : Inside c x yes (a + 8) → Inside c x (.ifElse yes no) a
  | ifNo {yes no : Body} {a : Nat} : Inside c x no (a + 8 + yes.size + 8) → Inside c x (.ifElse yes no) a
  | beginUntil {b : Body} {a : Nat} : Inside c x b a → Inside c x (.beginUntil b) a
  | beginAgain {b : Body} {a : Nat} : Inside c x b a → Inside c x (.beginAgain b) a
  | whileTest {test b : Body} {a : Nat} : Inside c x test a → Inside c x (.beginWhile test b) a
  | whileBody {test b : Body} {a : Nat} : Inside c x b (a + test.size + 8) → Inside c x (.beginWhile test b) a
  | doLoop {b : Body} {a : Nat} : Inside c x b (a + 4) → Inside c x (.doLoop b) a
  | doPlusLoop {b : Body} {a : Nat} : Inside c x b (a + 4) → Inside c x (.doPlusLoop b) a

namespace Body.Inside

variable {b c : Body} {a x : Nat}

/-- The code of a part stands in the code of the whole. -/
theorem stands {lo xt : Nat} {code : List UInt8} (h : Inside c x b a) (hs : Stands lo code a (b.bytes xt a)) :
    Stands lo code x (c.bytes xt x) := by
  induction h with
  | whole => exact hs
  | first _ ih => exact ih hs.left
  | second _ ih => exact ih hs.afterBody
  | ifThen _ ih => exact ih hs.afterBranch
  | ifYes _ ih => exact ih hs.afterBranch.left
  | ifNo _ ih => exact ih hs.afterBranch.afterBody.afterBranch
  | beginUntil _ ih | beginAgain _ ih => exact ih hs.left
  | whileTest _ ih => exact ih hs.left
  | whileBody _ ih => exact ih hs.afterBody.afterBranch.left
  | doLoop _ ih | doPlusLoop _ ih => exact ih hs.afterPlain.left

end Body.Inside

theorem Memory.Carries.stands {m : Memory} {lo a : Nat} {code bytes : List UInt8} (h : m.Carries lo code)
    (hs : Stands lo code a bytes) : m.Carries a bytes :=
  ⟨h.valid, (h.part hs).2, (h.part hs).1⟩

namespace Engine

variable {s s₁ later : Engine σ} {w : String} {b : Body}

/-- A definition that is retained is where it was laid down. -/
theorem Defined.retained (hd : s.Defined w b s₁) (hl : s₁.Retains later s.entry) :
    later.machine.memory.Carries s.entry (b.bytes s.dict.size s.entry ++ (Instr.plain .exit).bytes) := by
  have hhere := hd.laid.here
  exact ⟨hl.valid, hhere ▸ hl.here_le, hd.laid.code.congr fun a ha hb => hl.intact a ha (hhere ▸ hb)⟩

/-- And so is each of its parts. -/
theorem Defined.retained_part {c : Body} {a : Nat} (hd : s.Defined w b s₁) (hl : s₁.Retains later s.entry)
    (hc : c.Inside a b s.entry) : later.machine.memory.Carries a (c.bytes s.dict.size a) :=
  (hd.retained hl).stands (hc.stands (Stands.whole ..).left)

theorem Defined.rooted (hd : s.Defined w b s₁) (hl : s₁.Retains later s.entry) (hr : s.dict.Rooted) :
    later.dict.Rooted := by
  have hdict := hl.dict
  rw [hd.dict] at hdict
  exact hr.extends ((s.dict.extends_push w _).trans hdict)

end Engine

/-! ## Another data stack -/

def Machine.withData (m : Machine σ) (data : Stack) : Machine σ := { m with data := data }

namespace Engine

def withData (s : Engine σ) (data : Stack) : Engine σ := { s with machine := s.machine.withData data }

theorem dict_withData (s : Engine σ) (data : Stack) : (s.withData data).dict = s.dict := rfl

theorem data_withData (s : Engine σ) (data : Stack) : (s.withData data).machine.data = data := rfl

end Engine

/-! ## Runs between addresses -/

namespace Dictionary

variable {d : Dictionary σ} {base j k a b c : Nat} {m m' m'' : Machine σ}

/-- In `k` steps the machine `m`, at the address `a`, becomes `m'` at `b`. -/
def Reaches (d : Dictionary σ) (base k : Nat) (m : Machine σ) (a : Nat) (m' : Machine σ) (b : Nat) : Prop :=
  d.runFor k (m.placed (some a) base) = .ok () (m'.placed (some b) base)

theorem Reaches.refl (m : Machine σ) (a : Nat) : d.Reaches base 0 m a m a := rfl

theorem Reaches.trans (h : d.Reaches base j m a m' b) (g : d.Reaches base k m' b m'' c) :
    d.Reaches base (j + k) m a m'' c := by
  unfold Reaches at *
  rw [runFor_add, bind_of_ok h, g]

theorem Reaches.of_step (h : d.step (m.placed (some a) base) = .ok () (m'.placed (some b) base)) :
    d.Reaches base 1 m a m' b := by
  rw [Reaches, runFor_one _ rfl, h]

/-- A word that acts on its own takes the machine behind its token. -/
theorem reaches_of_word {lo xt : Nat} {code : List UInt8} {e : Entry σ} (hc : m.memory.Carries lo code)
    (hx : xt ≤ Cell.maxNat) (he : d.get? xt = some e) (ho : e.kind.isOrdinary = true)
    (hs : Stands lo code a (Instr.word xt).bytes) (h : e.kind.perform m = .ok () m') :
    d.Reaches base 1 m a m' (a + 4) := by
  refine .of_step ?_
  rw [step_ordinary hc hx he ho hs, h]
  rfl

/-- A run that is still going later on has been going all the time. -/
theorem Reaches.going (h : d.Reaches base k m a m' b) (hj : j ≤ k) :
    ∃ n, d.runFor j (m.placed (some a) base) = .ok () n ∧ n.ip.isSome = true := by
  obtain ⟨i, rfl⟩ := Nat.exists_eq_add_of_le hj
  rw [Reaches, runFor_add] at h
  obtain ⟨_, n, hj, hi⟩ := bind_ok_iff.mp h
  refine ⟨n, hj, ?_⟩
  cases hn : n.ip with
  | some _ => rfl
  | none =>
    rw [runFor_of_ip_none _ hn] at hi
    cases hi
    cases hn

end Dictionary

end Handheld
