/-
  Handheld.Proofs.Evaluator — what a body means, by its structure.

  The evaluator knows no instruction pointer and no branches: a body is evaluated part after
  part, a choice evaluates one of its parts, a loop its parts again and again. Words act on
  the machine as they do everywhere; strings are used where they are stored. A loop is given a
  number of rounds, and an evaluation that needs more is unfinished. The stores made on the
  way are kept in a list.
-/

import Handheld.Proofs.Stepping

namespace Handheld

variable {σ α β : Type}

/-- A machine and the stores made on it, the newest first: where each wrote, and how many bytes. -/
structure Tracked (σ : Type) where
  machine : Machine σ
  stores : List (Nat × Nat)

abbrev Evaluation (σ : Type) := EStateM Halt (Tracked σ)

namespace Evaluation

/-- Acts on the machine without storing to it. -/
def lift (x : Act σ α) : Evaluation σ α := fun t =>
  match x t.machine with
  | .ok a m => .ok a { t with machine := m }
  | .error f m => .error (.fault f) { t with machine := m }

/-- Goes on as long as it is told to, for at most so many rounds. -/
def rounds (x : Evaluation σ Bool) : Nat → Evaluation σ Unit
  | 0 => throw .unfinished
  | n + 1 => do if ← x then rounds x n

end Evaluation

def Dictionary.stores (d : Dictionary σ) (xt : Nat) (m : Machine σ) : List (Nat × Nat) :=
  match d.get? xt with
  | some e => e.kind.stores m
  | none => []

/-- Acts as the word does, and notes what it stores. -/
def Dictionary.evaluate (d : Dictionary σ) (xt : Nat) : Evaluation σ Unit := fun t =>
  match d.perform xt t.machine with
  | .ok _ m => .ok () ⟨m, d.stores xt t.machine ++ t.stores⟩
  | .error f m => .error (.fault f) { t with machine := m }

open Evaluation Primitive in
/-- Evaluates the body whose code is at `a`, each loop for at most `n` rounds. -/
def Body.exec (d : Dictionary σ) (n a : Nat) : Body → Evaluation σ Unit
  | .empty => pure ()
  | .seq b c => do
    b.exec d n a
    c.exec d n (a + b.size)
  | .word xt => d.evaluate xt
  | .literal v => lift (Machine.push v)
  | .string u text => lift (u.act (a + 8) (Text.utf8 text).length)
  | .recurse | .exit => throw .unfinished
  | .ifThen yes => do
    if ← lift popZero then pure () else yes.exec d n (a + 8)
  | .ifElse yes no => do
    if ← lift popZero then no.exec d n (a + 8 + yes.size + 8) else yes.exec d n (a + 8)
  | .beginUntil body =>
    rounds (do
      body.exec d n a
      lift popZero) n
  | .beginAgain body =>
    rounds (do
      body.exec d n a
      return true) n
  | .beginWhile test body =>
    rounds (do
      test.exec d n a
      if ← lift popZero then return false
      else
        body.exec d n (a + test.size + 8)
        return true) n
  | .doLoop body => do
    lift enterLoop.run
    rounds (do
      body.exec d n (a + 4)
      lift (advance 1)) n
  | .doPlusLoop body => do
    lift enterLoop.run
    rounds (do
      body.exec d n (a + 4)
      lift (do advance (← Machine.pop))) n

/-- The pieces the evaluator knows: numbers, strings, and words that act on their own. -/
def Body.Plain (d : Dictionary σ) : Nat → Body → Prop
  | _, .word xt => ∃ e, d.get? xt = some e ∧ e.kind.isOrdinary = true
  | _, .recurse | _, .exit => False
  | _, _ => True

/-! ## Enough rounds -/

namespace Evaluation

/-- The second does the same as the first, or goes on where the first is unfinished. -/
def Continues (x y : Evaluation σ α) : Prop := ∀ t, (∃ r, x t = .error .unfinished r) ∨ y t = x t

namespace Continues

theorem refl (x : Evaluation σ α) : Continues x x := fun _ => .inr rfl

theorem bind {x y : Evaluation σ α} {f g : α → Evaluation σ β} (hx : Continues x y)
    (hf : ∀ v, Continues (f v) (g v)) : Continues (x >>= f) (y >>= g) := by
  intro t
  rcases hx t with ⟨r, e⟩ | e
  · exact .inl ⟨r, bind_of_error e⟩
  · rw [bind_apply, bind_apply, e]
    cases x t with
    | ok v t' => exact hf v t'
    | error e t' => exact .inr rfl

theorem ite (c : Bool) {x x' y y' : Evaluation σ α} (hx : Continues x y) (hx' : Continues x' y') :
    Continues (if c then x else x') (if c then y else y') := by
  cases c with
  | true => exact hx
  | false => exact hx'

theorem rounds {x y : Evaluation σ Bool} (hx : Continues x y) {n k : Nat} (hn : n ≤ k) :
    Continues (Evaluation.rounds x n) (Evaluation.rounds y k) := by
  induction n generalizing k with
  | zero => exact fun t => .inl ⟨t, rfl⟩
  | succ n ih =>
    obtain ⟨j, rfl⟩ : ∃ j, k = j + 1 := ⟨k - 1, by omega⟩
    exact hx.bind fun again => .ite again (ih (by omega)) (.refl _)

end Continues

end Evaluation

open Evaluation in
/-- With more rounds an evaluation that is over comes to the same. -/
theorem Body.exec_continues (d : Dictionary σ) {n k : Nat} (hn : n ≤ k) (b : Body) (a : Nat) :
    Continues (b.exec d n a) (b.exec d k a) := by
  induction b generalizing a with
  | empty | word | literal | string | recurse | exit => exact .refl _
  | seq b c ihb ihc => exact (ihb a).bind fun _ => ihc _
  | ifThen yes ih => exact (Continues.refl _).bind fun zero => .ite zero (.refl _) (ih _)
  | ifElse yes no ihy ihn => exact (Continues.refl _).bind fun zero => .ite zero (ihn _) (ihy _)
  | beginUntil body ih => exact ((ih a).bind fun _ => .refl _).rounds hn
  | beginAgain body ih => exact ((ih a).bind fun _ => .refl _).rounds hn
  | beginWhile test body iht ih =>
    refine ((iht a).bind fun _ => (Continues.refl _).bind fun zero => ?_).rounds hn
    exact .ite zero (.refl _) ((ih _).bind fun _ => .refl _)
  | doLoop body ih => exact (Continues.refl _).bind fun _ => ((ih _).bind fun _ => .refl _).rounds hn
  | doPlusLoop body ih => exact (Continues.refl _).bind fun _ => ((ih _).bind fun _ => .refl _).rounds hn

theorem Body.exec_of_le {d : Dictionary σ} {n k a : Nat} {b : Body} {t r : Tracked σ} (hn : n ≤ k)
    (h : b.exec d n a t = .ok () r) : b.exec d k a t = .ok () r := by
  rcases b.exec_continues d hn a t with ⟨r', e⟩ | e
  · rw [h] at e
    cases e
  · exact e.trans h

/-- However many rounds it is given, an evaluation ends in one way. -/
theorem Body.exec_unique {d : Dictionary σ} {n k a : Nat} {b : Body} {t r r' : Tracked σ}
    (h : b.exec d n a t = .ok () r) (h' : b.exec d k a t = .ok () r') : r = r' := by
  rcases Nat.le_total n k with hn | hn
  · exact (EStateM.Result.ok.inj ((exec_of_le hn h).symm.trans h')).2
  · exact (EStateM.Result.ok.inj (h.symm.trans (exec_of_le hn h'))).2

end Handheld
