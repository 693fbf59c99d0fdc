/-
  Handheld.Proofs.Simulation — compiled code does what its body means.

  `Simulates` compares an evaluation with the run of the code between two addresses: where the
  evaluation ends the run arrives, with the same machine; where it fails the run fails alike;
  where it is unfinished the run has gone on for as many steps and is still going. It holds of
  each instruction, is kept by sequencing, and for a loop follows by induction on the rounds, so
  that it holds of every body by induction on its structure (`Body.exec_simulates`). As runs are
  deterministic, a definition then ends or fails exactly as its body does
  (`compiled_body_correct`).
-/

import Handheld.Proofs.Evaluator
import Handheld.Proofs.Session

namespace Handheld

variable {σ α β : Type}

/-! ## Evaluations and runs -/

/-- Stores are only added. -/
def Tracked.Notes (t t' : Tracked σ) : Prop := ∀ w ∈ t.stores, w ∈ t'.stores

theorem Tracked.Notes.ordered : Ordered (Tracked.Notes (σ := σ)) :=
  ⟨fun _ _ h => h, fun h g w hw => g w (h w hw)⟩

section

variable (d : Dictionary σ) (lo : Nat) (code : List UInt8)

/-- How a run from `m` must go when an evaluation ends like that: it takes at least `least`
    steps to arrive, and at least `most` when the evaluation is unfinished. -/
def Meets (most least : Nat) (m : Machine σ) (base : Nat) (next : α → Nat) :
    EStateM.Result Halt (Tracked σ) α → Prop
  | .ok a t => t.machine.memory.Carries lo code ∧
      ∃ k, least ≤ k ∧ d.runFor k m = .ok () (t.machine.placed (some (next a)) base)
  | .error (.fault f) t => ∃ k ip, d.runFor k m = .error f (t.machine.placed ip base)
  | .error .unfinished _ => ∃ k m', most ≤ k ∧ d.runFor k m = .ok () m' ∧ m'.ip.isSome = true

/-- The code from `a` on does what the evaluation does, and goes on where its result says. -/
structure Simulates (most least : Nat) (x : Evaluation σ α) (a : Nat) (next : α → Nat) : Prop where
  notes : Keeps Tracked.Notes x
  runs : ∀ t base, t.machine.memory.Carries lo code → (∀ w ∈ (stateAfter x t).stores,
      Apart lo (lo + code.length) w) →
    Meets d lo code most least (t.machine.placed (some a) base) base next (x t)

end

namespace Simulates

variable {d : Dictionary σ} {lo a : Nat} {code : List UInt8} {most least : Nat}

theorem pure (v : α) {next : α → Nat} (h : next v = a) :
    Simulates d lo code most 0 (Pure.pure v : Evaluation σ α) a next :=
  ⟨.pure Tracked.Notes.ordered v, fun _ _ hc _ => ⟨hc, 0, Nat.le_refl _, by rw [h]; rfl⟩⟩

theorem mono {x : Evaluation σ α} {next : α → Nat} {most' least' : Nat}
    (h : Simulates d lo code most least x a next)
    (hm : most' ≤ most) (hl : least' ≤ least) : Simulates d lo code most' least' x a next := by
  refine ⟨h.notes, fun t base hc hs => ?_⟩
  have := h.runs t base hc hs
  rcases e : x t with ⟨v, t'⟩ | ⟨f | _, t'⟩
  · rw [e] at this
    obtain ⟨hc', k, hk, hrun⟩ := this
    exact ⟨hc', k, Nat.le_trans hl hk, hrun⟩
  · rw [e] at this
    exact this
  · rw [e] at this
    obtain ⟨k, m', hk, hrun⟩ := this
    exact ⟨k, m', Nat.le_trans hm hk, hrun⟩

theorem ends {x : Evaluation σ α} {next next' : α → Nat} (h : Simulates d lo code most least x a next)
    (e : ∀ v, next v = next' v) : Simulates d lo code most least x a next' := by
  rw [← funext e]
  exact h

theorem weaken {x : Evaluation σ α} {next : α → Nat} (h : Simulates d lo code most least x a next) :
    Simulates d lo code most 0 x a next :=
  h.mono (Nat.le_refl _) (Nat.zero_le _)

/-- One piece of code after the other does one evaluation after the other. What the first takes
    counts towards the steps of the second. -/
theorem bind_of_le {x : Evaluation σ α} {y : α → Evaluation σ β} {next : α → Nat} {after : β → Nat}
    {most' least' : Nat} (hx : Simulates d lo code most least x a next)
    (hy : ∀ v, Simulates d lo code most' least' (y v) (next v) after)
    (hm : most ≤ least + most') : Simulates d lo code most (least + least') (x >>= y) a after := by
  refine ⟨.bind Tracked.Notes.ordered hx.notes fun v => (hy v).notes, fun t base hc hs => ?_⟩
  have hrun := hx.runs t base hc
  unfold stateAfter at hs hrun
  rw [bind_apply] at hs ⊢
  rcases e : x t with ⟨v, t₁⟩ | ⟨f | _, t₁⟩
  · rw [e] at hs hrun
    have hnotes := (hy v).notes t₁
    unfold stateAfter at hnotes
    obtain ⟨hc₁, j, hj, hrun₁⟩ := hrun fun w hw => hs w (hnotes w hw)
    have hrun₂ := (hy v).runs t₁ base hc₁ hs
    dsimp only
    rcases e₂ : y v t₁ with ⟨w, t₂⟩ | ⟨f | _, t₂⟩
    · rw [e₂] at hrun₂
      obtain ⟨hc₂, k, hk, hrun₂⟩ := hrun₂
      exact ⟨hc₂, j + k, by omega, by rw [d.runFor_add, bind_of_ok hrun₁]; exact hrun₂⟩
    · rw [e₂] at hrun₂
      obtain ⟨k, ip, hrun₂⟩ := hrun₂
      exact ⟨j + k, ip, by rw [d.runFor_add, bind_of_ok hrun₁]; exact hrun₂⟩
    · rw [e₂] at hrun₂
      obtain ⟨k, m', hk, hrun₂, hip⟩ := hrun₂
      exact ⟨j + k, m', by omega, by rw [d.runFor_add, bind_of_ok hrun₁]; exact hrun₂, hip⟩
  · rw [e] at hs hrun
    exact hrun hs
  · rw [e] at hs hrun
    exact hrun hs

theorem bind {x : Evaluation σ α} {y : α → Evaluation σ β} {next : α → Nat} {after : β → Nat} {least' : Nat}
    (hx : Simulates d lo code most least x a next)
    (hy : ∀ v, Simulates d lo code most least' (y v) (next v) after) :
    Simulates d lo code most (least + least') (x >>= y) a after :=
  hx.bind_of_le hy (Nat.le_add_left ..)

/-- A loop: each round takes a step at least, so rounds without end are steps without end. -/
theorem rounds {x : Evaluation σ Bool} {last : Nat}
    (hx : Simulates d lo code most 1 x a fun again => if again then a else last)
    (n : Nat) (hn : n ≤ most) : Simulates d lo code n 0 (Evaluation.rounds x n) a fun _ => last := by
  induction n with
  | zero =>
    refine ⟨.throw Tracked.Notes.ordered _, fun t base hc _ => ?_⟩
    exact ⟨0, _, Nat.le_refl _, rfl, rfl⟩
  | succ n ih =>
    have hrest :
        ∀ again : Bool, Simulates d lo code n 0 (if again then Evaluation.rounds x n else Pure.pure ())
        (if again then a else last) fun _ => last := by
      intro again
      cases again with
      | true => exact ih (by omega)
      | false => exact .pure () rfl
    have h := (hx.mono hn (Nat.le_refl 1)).bind_of_le hrest (Nat.le_of_eq (Nat.add_comm n 1))
    exact h.mono (Nat.le_refl _) (Nat.zero_le _)

/-! ## Instructions -/

/-- An act that one instruction does is simulated by it. -/
theorem lift {x : Act σ α} {next : α → Nat} (hg : Keeps (fun m m' : Machine σ => m.memory.Grows m'.memory) x)
    (hok : ∀ m base v m', m.memory.Carries lo code → x m = .ok v m' →
      d.step (m.placed (some a) base) = .ok () (m'.placed (some (next v)) base))
    (herror : ∀ m base f m', m.memory.Carries lo code → x m = .error f m' →
      ∃ ip, d.step (m.placed (some a) base) = .error f (m'.placed ip base)) :
    Simulates d lo code most 1 (Evaluation.lift x) a next := by
  refine ⟨fun t => ?_, fun t base hc _ => ?_⟩
  · unfold stateAfter Evaluation.lift
    rcases x t.machine with ⟨v, m⟩ | ⟨f, m⟩ <;> exact fun w hw => hw
  · unfold Evaluation.lift
    have hone := d.runFor_one (m := t.machine.placed (some a) base) rfl
    rcases e : x t.machine with ⟨v, m⟩ | ⟨f, m⟩
    · exact ⟨hc.grows (hg.of_ok e), 1, Nat.le_refl 1, by rw [hone]; exact hok _ base v m hc e⟩
    · obtain ⟨ip, hstep⟩ := herror _ base f m hc e
      exact ⟨1, ip, by rw [hone]; exact hstep⟩

/-- An act that is the same everywhere, done by the instruction at `a`, which ends at `next`. -/
theorem lift_of_step {x : Act σ Unit} {next : Nat}
    (hg : Keeps (fun m m' : Machine σ => m.memory.Grows m'.memory) x)
    (hstep : ∀ (m : Machine σ) base, m.memory.Carries lo code →
      d.step (m.placed (some a) base) = mapState (·.placed (some next) base) (x m)) :
    Simulates d lo code most 1 (Evaluation.lift x) a fun _ => next := by
  refine lift hg (fun m base v m' hc e => ?_) fun m base f m' hc e => ⟨some next, ?_⟩
  · rw [hstep m base hc, e]; rfl
  · rw [hstep m base hc, e]; rfl

section

variable (hd : d.Rooted)

include hd

theorem literal {v : Cell} (hs : Stands lo code a (Instr.literal v).bytes) :
    Simulates d lo code most 1 (Evaluation.lift (Machine.push v)) a fun _ => a + 8 :=
  lift_of_step (Machine.growing_partWise.closed.push v) fun _ _ hc => Dictionary.step_literal hc hd hs

theorem enterLoop (hs : Stands lo code a (Instr.plain .enterLoop).bytes) :
    Simulates d lo code most 1 (Evaluation.lift Primitive.enterLoop.run) a fun _ => a + 4 :=
  lift_of_step (Primitive.grows_run rfl) fun _ _ hc => Dictionary.step_enterLoop hc hd hs

theorem branch (most : Nat) {p : Primitive} (hp : p.isBranch = true) {target : Nat}
    (ht : target ≤ Cell.maxNat) (hs : Stands lo code a (Instr.branch p target).bytes) :
    Simulates d lo code most 1 (Evaluation.lift p.decides) a fun taken => if taken then target else a + 8 :=
  lift (Primitive.grows_decides p) (fun _ _ taken m' hc e =>
      (Dictionary.step_branch hc hd hp ht hs).1 taken m' e)
    fun _ _ f m' hc e => (Dictionary.step_branch hc hd hp ht hs).2 f m' e

/-- A jump is nothing to the evaluation. -/
theorem jump (most : Nat) (v : α) {target : Nat} (ht : target ≤ Cell.maxNat)
    (hs : Stands lo code a (Instr.branch .jump target).bytes) {next : α → Nat} (h : next v = target) :
    Simulates d lo code most 1 (Pure.pure v : Evaluation σ α) a next := by
  subst h
  exact ⟨.pure Tracked.Notes.ordered v, fun t base hc happ => (branch hd most rfl ht hs).runs t base hc happ⟩

theorem string (u : StringUse) (text : String) (ha : 4 ∣ a)
    (hs : Stands lo code a (Instr.string u text).bytes) :
    Simulates d lo code most 1 (Evaluation.lift (u.act (a + 8) (Text.utf8 text).length)) a
      fun _ => a + (Instr.string u text).size :=
  lift_of_step (u.act_of_closed Machine.growing_partWise.closed _ _) fun _ _ hc =>
      Dictionary.step_string hc hd u text ha hs

end

/-- A word that acts on its own does so behind its token. -/
theorem word {xt : Nat} (hx : xt ≤ Cell.maxNat) {e : Entry σ} (he : d.get? xt = some e)
    (ho : e.kind.isOrdinary = true) (hs : Stands lo code a (Instr.word xt).bytes) :
    Simulates d lo code most 1 (d.evaluate xt) a fun _ => a + 4 := by
  have hperform : d.perform xt = e.kind.perform := by rw [Dictionary.perform, he]
  have hstores (m : Machine σ) : d.stores xt m = e.kind.stores m := by rw [Dictionary.stores, he]
  have hok {t : Tracked σ} {m : Machine σ} (h : e.kind.perform t.machine = .ok () m) :
      d.evaluate xt t = .ok () ⟨m, e.kind.stores t.machine ++ t.stores⟩ := by
    rw [← hperform] at h
    rw [Dictionary.evaluate, h, hstores]
  have herror {t : Tracked σ} {f : Fault} {m : Machine σ} (h : e.kind.perform t.machine = .error f m) :
      d.evaluate xt t = .error (.fault f) { t with machine := m } := by
    rw [← hperform] at h
    rw [Dictionary.evaluate, h]
  refine ⟨fun t => ?_, fun t base hc happ => ?_⟩
  · rcases h : e.kind.perform t.machine with ⟨_, m⟩ | ⟨f, m⟩
    · rw [stateAfter_ok (hok h)]
      exact fun w hw => List.mem_append_right _ hw
    · rw [stateAfter_error (herror h)]
      exact fun w hw => hw
  · have hrun : d.runFor 1 (t.machine.placed (some a) base) =
        mapState (·.placed (some (a + 4)) base) (e.kind.perform t.machine) := by
      rw [d.runFor_one rfl, Dictionary.step_ordinary hc hx he ho hs]
    rcases h : e.kind.perform t.machine with ⟨_, m⟩ | ⟨f, m⟩
    · rw [stateAfter_ok (hok h)] at happ
      rw [h] at hrun
      rw [hok h]
      exact ⟨e.kind.carries_perform ho hc (fun w hw => happ w (List.mem_append_left _ hw)) h, 1,
          Nat.le_refl 1, hrun⟩
    · rw [h] at hrun
      rw [herror h]
      exact ⟨1, _, hrun⟩

end Simulates

/-! ## Bodies -/

theorem Body.Plain.extends {d d' : Dictionary σ} {loops : Nat} {b : Body} (h : b.Plain d loops)
    (he : d.Extends d') : b.Plain d' loops := by
  cases b with
  | word xt =>
    obtain ⟨e, hx, ho⟩ := h
    exact ⟨e, he.get? hx, ho⟩
  | recurse | exit => exact h.elim
  | _ => trivial

/-- A counted loop: `p` is the instruction at its end. -/
theorem Simulates.counted {d : Dictionary σ} (hd : d.Rooted) {p : Primitive} (hp : p.isBranch = true)
    {lo xt n a : Nat} {code : List UInt8} {body : Body} (ha : a + 4 ≤ Cell.maxNat)
    (hs : Stands lo code a ((Instr.plain .enterLoop).bytes ++
      (body.bytes xt (a + 4) ++ (Instr.branch p (a + 4)).bytes)))
    (hbody : Simulates d lo code n 0 (body.exec d n (a + 4)) (a + 4) fun _ => a + 4 + body.size) :
    Simulates d lo code n 0
      (do
        Evaluation.lift Primitive.enterLoop.run
        Evaluation.rounds (do
          body.exec d n (a + 4)
          Evaluation.lift p.decides) n)
      a fun _ => a + (4 + (body.size + 8)) := by
  have hagain := Simulates.branch hd n hp ha hs.afterPlain.afterBody
  have hrounds := (hbody.bind fun _ => hagain).rounds n (Nat.le_refl n)
  exact ((Simulates.enterLoop hd hs.left).bind fun _ => hrounds.ends fun _ => by omega).weaken

/-- Every body is simulated by its code. -/
theorem Body.exec_simulates {d : Dictionary σ} (hd : d.Rooted) {lo xt n : Nat} {code : List UInt8}
    (hmax : lo + code.length ≤ Cell.maxNat) {b : Body} {loops a : Nat} (ha : 4 ∣ a)
    (hs : Stands lo code a (b.bytes xt a))
    (hfit : b.Each (Body.Fits xt) loops) (hplain : b.Each (Body.Plain d) loops) :
    Simulates d lo code n 0 (b.exec d n a) a fun _ => a + b.size := by
  have hend := hs.end_le
  rw [length_bytes] at hend
  induction b generalizing loops a with
  | empty => exact .pure () rfl
  | seq b c ihb ihc =>
    simp only [size] at hend
    have hb := ihb ha hs.left hfit.1 hplain.1 (by omega)
    have hc := ihc (Nat.dvd_add ha b.dvd_size) hs.afterBody hfit.2 hplain.2 (by omega)
    exact (hb.bind fun _ => hc).ends fun _ => Nat.add_assoc ..
  | word w =>
    obtain ⟨e, he, ho⟩ := hplain
    exact (Simulates.word hfit he ho hs).weaken
  | literal v => exact (Simulates.literal hd hs).weaken
  | string u text => exact (Simulates.string hd u text ha hs).weaken
  | recurse => exact hplain.elim
  | exit => exact hplain.elim
  | ifThen yes ih =>
    simp only [size] at hend
    have htest := Simulates.branch hd n rfl (by omega) hs.left
    have hyes := ih (by omega) hs.afterBranch hfit hplain (by omega)
    have hrest (zero : Bool) : Simulates d lo code n 0 (if zero then pure () else yes.exec d n (a + 8))
        (if zero then a + 8 + yes.size else a + 8) fun _ => a + (8 + yes.size) := by
      cases zero with
      | true => exact .pure () (Nat.add_assoc ..).symm
      | false => exact hyes.ends fun _ => Nat.add_assoc ..
    exact (htest.bind hrest).weaken
  | ifElse yes no ihy ihn =>
    simp only [size] at hend
    have hsize := yes.dvd_size
    have hafter := hs.afterBranch.afterBody
    have htest := Simulates.branch hd n rfl (by omega) hs.left
    have hyes := ihy (by omega) hs.afterBranch.left hfit.1 hplain.1 (by omega)
    have hno := ihn (by omega) hafter.afterBranch hfit.2 hplain.2 (by omega)
    have hrest (zero : Bool) : Simulates d lo code n 0
        (if zero then no.exec d n (a + 8 + yes.size + 8) else yes.exec d n (a + 8))
        (if zero then a + 8 + yes.size + 8 else a + 8) fun _ => a + (8 + yes.size + (8 + no.size)) := by
      cases zero with
      | true => exact hno.ends fun _ => by omega
      | false =>
        -- behind the first part the code jumps over the second
        have h := hyes.bind fun v => Simulates.jump hd n v (by omega) hafter.left rfl
        rw [bind_pure] at h
        exact (h.ends fun _ => by omega).weaken
    exact (htest.bind hrest).weaken
  | beginUntil body ih =>
    simp only [size] at hend
    have hbody := ih ha hs.left hfit hplain (by omega)
    have htest := Simulates.branch hd n rfl (by omega) hs.afterBody
    exact (hbody.bind fun _ => htest).rounds n (Nat.le_refl n)
  | beginAgain body ih =>
    simp only [size] at hend
    have hbody := ih ha hs.left hfit hplain (by omega)
    exact (hbody.bind fun _ => Simulates.jump hd n true (by omega) hs.afterBody rfl).rounds n (Nat.le_refl n)
  | beginWhile test body iht ih =>
    simp only [size] at hend ⊢
    have hsize := test.dvd_size
    have hafter := hs.afterBody.afterBranch
    have htest := iht ha hs.left hfit.1 hplain.1 (by omega)
    have hflag := Simulates.branch hd n rfl (by omega) hs.afterBody.left
    have hbody := ih (by omega) hafter.left hfit.2 hplain.2 (by omega)
    have hrest (zero : Bool) : Simulates d lo code n 0
        (if zero then return false else do body.exec d n (a + test.size + 8); return true)
        (if zero then a + test.size + 8 + body.size + 8 else a + test.size + 8)
        fun again => if again then a else a + (test.size + 8 + (body.size + 8)) := by
      cases zero with
      | true => exact .pure false (by simp only [Bool.false_eq_true, if_false, if_true]; omega)
      | false => exact (hbody.bind fun _ => Simulates.jump hd n true (by omega) hafter.afterBody rfl).weaken
    have hround := htest.bind fun _ => hflag.bind hrest
    exact (hround.mono (Nat.le_refl n) (Nat.le_refl 1)).rounds n (Nat.le_refl n)
  | doLoop body ih =>
    simp only [size] at hend ⊢
    exact Simulates.counted hd rfl (by omega) hs (ih (by omega) hs.afterPlain.left hfit hplain (by omega))
  | doPlusLoop body ih =>
    simp only [size] at hend ⊢
    exact Simulates.counted hd rfl (by omega) hs (ih (by omega) hs.afterPlain.left hfit hplain (by omega))

/-! ## Definitions -/

namespace Dictionary

/-- The run is over: the code has returned, or failed. -/
def Over : EStateM.Result Fault (Machine σ) Unit → Prop
  | .ok _ m => m.ip = none
  | .error _ _ => True

variable {d : Dictionary σ} {m : Machine σ} {j k : Nat}

theorem runFor_of_over (h : Over (d.runFor j m)) (hjk : j ≤ k) : d.runFor k m = d.runFor j m := by
  obtain ⟨i, rfl⟩ := Nat.exists_eq_add_of_le hjk
  rw [d.runFor_add, bind_apply]
  rcases e : d.runFor j m with ⟨_, m'⟩ | ⟨f, m'⟩
  · rw [e] at h
    exact d.runFor_of_ip_none h i
  · rfl

theorem runFor_unique (hj : Over (d.runFor j m)) (hk : Over (d.runFor k m)) :
    d.runFor j m = d.runFor k m := by
  rcases Nat.le_total j k with hjk | hjk
  · exact (runFor_of_over hj hjk).symm
  · exact runFor_of_over hk hjk

end Dictionary

/-- An evaluation and a run came to the same: both ended, or both failed with the same fault,
    and the machines differ in nothing but where they are. -/
inductive Accords (base : Nat) :
    EStateM.Result Halt (Tracked σ) Unit → EStateM.Result Fault (Machine σ) Unit → Prop
  | ended (r : Tracked σ) : Accords base (.ok () r) (.ok () (r.machine.placed none base))
  | failed (f : Fault) (r : Tracked σ) (ip : Option Nat) :
      Accords base (.error (.fault f) r) (.error f (r.machine.placed ip base))

theorem Accords.over {base : Nat} {x : EStateM.Result Halt (Tracked σ) Unit}
    {y : EStateM.Result Fault (Machine σ) Unit} (h : Accords base x y) : Dictionary.Over y := by
  cases h with
  | ended r => rfl
  | failed f r ip => trivial

section

variable {d : Dictionary σ} {m : Machine σ} {b : Body} {xt entry : Nat}

variable (hd : d.Rooted) (hc : m.memory.Carries entry (b.bytes xt entry ++ (Instr.plain .exit).bytes))
    (ha : 4 ∣ entry)
  (hfit : b.Each (Body.Fits xt) 0) (hplain : b.Each (Body.Plain d) 0)
  (hstores : ∀ n, ∀ w ∈ (stateAfter (b.exec d n entry) ⟨m, []⟩).stores, Apart entry (entry + (b.size + 4)) w)
  (hret : ∀ n t, b.exec d n entry ⟨m, []⟩ = .ok () t → t.machine.ret.depth = m.ret.depth)

include hd hc ha hfit hplain hstores hret

/-- An evaluation that is over is what some run of the definition comes to; while it is not,
    neither is the run. -/
theorem Body.exec_meets (n : Nat) :
    (∃ k, Accords m.ret.depth (b.exec d n entry ⟨m, []⟩) (d.runFor k (m.placed (some entry) m.ret.depth))) ∨
    (∃ k t m', b.exec d n entry ⟨m, []⟩ = .error .unfinished t ∧ n ≤ k ∧
      d.runFor k (m.placed (some entry) m.ret.depth) = .ok () m' ∧ m'.ip.isSome = true) := by
  have hwhole := Stands.whole entry (b.bytes xt entry ++ (Instr.plain .exit).bytes)
  have hmax := Nat.le_trans hc.inside hc.valid.here_le_maxNat
  have hsim := Body.exec_simulates (n := n) hd hmax ha hwhole.left hfit hplain
  have happart : ∀ w ∈ (stateAfter (b.exec d n entry) ⟨m, []⟩).stores,
      Apart entry (entry + (b.bytes xt entry ++ (Instr.plain .exit).bytes).length) w := by
    simpa using hstores n
  have h := hsim.runs ⟨m, []⟩ m.ret.depth hc happart
  rcases e : b.exec d n entry ⟨m, []⟩ with ⟨_, t⟩ | ⟨f | _, t⟩
  · rw [e] at h
    obtain ⟨hc', k, -, hrun⟩ := h
    refine .inl ⟨k + 1, ?_⟩
    have hstep := Dictionary.step_exit hc' hd hwhole.afterBody (Nat.le_of_eq (hret n t e))
    rw [d.runFor_add, bind_of_ok hrun, d.runFor_one rfl, hstep]
    exact .ended t
  · rw [e] at h
    obtain ⟨k, ip, hrun⟩ := h
    exact .inl ⟨k, by rw [hrun]; exact .failed f t ip⟩
  · rw [e] at h
    obtain ⟨k, m', hk, hrun, hip⟩ := h
    exact .inr ⟨k, t, m', rfl, hk, hrun, hip⟩

/-- A run that is over is what the evaluation comes to, given rounds enough. -/
theorem Body.runFor_accords {k : Nat}
    (hover : Dictionary.Over (d.runFor k (m.placed (some entry) m.ret.depth))) :
    ∃ n, Accords m.ret.depth (b.exec d n entry ⟨m, []⟩) (d.runFor k (m.placed (some entry) m.ret.depth)) := by
  refine ⟨k, ?_⟩
  rcases Body.exec_meets hd hc ha hfit hplain hstores hret k with ⟨j, hj⟩ | ⟨j, t, m', -, hk, hrun, hip⟩
  · rw [Dictionary.runFor_unique hover hj.over]
    exact hj
  · -- the run is over and goes on
    have hsame := Dictionary.runFor_of_over hover hk
    rw [hrun] at hsame
    rw [← hsame] at hover
    rw [show m'.ip = none from hover] at hip
    cases hip

end

namespace Engine

/-- Without a budget, a run ends when the code has returned within the steps it is given. -/
theorem runCode_ok_iff {s s' : Engine σ} (hb : s.budget = none) (fuel entry : Nat) :
    runCode fuel entry s = .ok () s' ↔
      ∃ m, s.dict.runFor fuel (s.machine.placed (some entry) s.machine.ret.depth) = .ok () m ∧ m.ip = none ∧
        s' = { s with machine := m } := by
  rw [runCode_eq, hb]
  show (match s.dict.runFor fuel (s.machine.placed (some entry) s.machine.ret.depth) with
    | .ok _ m => _
    | .error f m => _) = _ ↔ _
  rcases s.dict.runFor fuel (s.machine.placed (some entry) s.machine.ret.depth) with ⟨_, m⟩ | ⟨f, m⟩
  · rcases hip : m.ip with - | a
    · simp [hip, eq_comm]
    · simp [hip]
  · simp

theorem runCode_fault_iff {s s' : Engine σ} {f : Fault} (hb : s.budget = none) (fuel entry : Nat) :
    runCode fuel entry s = .error (.fault f) s' ↔
      ∃ m, s.dict.runFor fuel (s.machine.placed (some entry) s.machine.ret.depth) = .error f m ∧
        s' = { s with machine := m } := by
  rw [runCode_eq, hb]
  show (match s.dict.runFor fuel (s.machine.placed (some entry) s.machine.ret.depth) with
    | .ok _ m => _
    | .error f m => _) = _ ↔ _
  rcases s.dict.runFor fuel (s.machine.placed (some entry) s.machine.ret.depth) with ⟨_, m⟩ | ⟨g, m⟩
  · rcases hip : m.ip with - | a <;> simp [hip, overrun]
  · simp only [EStateM.Result.error.injEq, Halt.fault.injEq]
    constructor
    · rintro ⟨rfl, rfl⟩
      exact ⟨m, ⟨rfl, rfl⟩, rfl⟩
    · rintro ⟨_, ⟨rfl, rfl⟩, rfl⟩
      exact ⟨rfl, rfl⟩

/-- A later state of an engine, in which what it had laid down from `lo` on is as it was. -/
structure Retains (s s' : Engine σ) (lo : Nat) : Prop where
  dict : s.dict.Extends s'.dict
  valid : s'.machine.memory.Valid
  here_le : s.machine.memory.here ≤ s'.machine.memory.here
  intact : ∀ a, lo ≤ a → a < s.machine.memory.here → s'.machine.memory.byteAt a = s.machine.memory.byteAt a

/-- A definition compiles to code that does what its body means. In every later state that has
    its code, and as long as no store hits it, running the word ends, and with what, exactly as
    the evaluation of the body ends, and fails, and how, exactly as the evaluation fails; so it
    runs on for ever exactly when the evaluation does. -/
theorem compiled_body_correct {s s₁ later : Engine σ} {fuel₀ entry : Nat} {t u : Token} {w : String}
    {ps : List Phrase}
    {b : Body} (hm : s.mode = .run) (hv : s.machine.memory.Valid) (hd : s.dict.Rooted)
    (hr : Reads s.dict ps b) (hplain : b.Each (Body.Plain s.dict) 0)
    (hdef : feedAll fuel₀ (.define .colon t (some w) :: ps ++ [.control .semicolon u]) s = .ok () s₁)
    (hentry : s₁.dict.entry? w = some entry) (hlater : s₁.Retains later entry) (hbudget : later.budget = none)
    (hstores : ∀ n, ∀ x ∈ (stateAfter (b.exec later.dict n entry) ⟨later.machine, []⟩).stores,
      Apart entry s₁.machine.memory.here x)
    (hret : ∀ n r, b.exec later.dict n entry ⟨later.machine, []⟩ = .ok () r →
      r.machine.ret.depth = later.machine.ret.depth) :
    (∀ last, (∃ fuel, runCode fuel entry later = .ok () last) ↔
      ∃ n r, b.exec later.dict n entry ⟨later.machine, []⟩ = .ok () r ∧
        last = { later with machine := r.machine.placed none later.machine.ret.depth }) ∧
    (∀ f (m : Machine σ), (∃ fuel ip, runCode fuel entry later =
        .error (.fault f) { later with machine := m.placed ip later.machine.ret.depth }) ↔
      ∃ n r, b.exec later.dict n entry ⟨later.machine, []⟩ = .error (.fault f) r ∧
        r.machine.placed none 0 = m.placed none 0) := by
  have hdefined := defined_of_reads hv hm hr hdef
  have hdict : s₁.dict = (s.dict.push w (.compiled s.entry)).2 := by rw [hdefined.engine]
  obtain rfl : s.entry = entry := by
    rw [hdict, Dictionary.entry?_push] at hentry
    injection hentry
  have hhere := hdefined.laid.here
  have hext : s.dict.Extends later.dict := (s.dict.extends_push w _).trans (hdict ▸ hlater.dict)
  have hc : later.machine.memory.Carries s.entry (b.bytes s.dict.size s.entry ++ (Instr.plain .exit).bytes) :=
    ⟨hlater.valid, hhere ▸ hlater.here_le, hdefined.laid.code.congr fun a ha hb =>
     hlater.intact a ha (hhere ▸ hb)⟩
  have hplain' : b.Each (Body.Plain later.dict) 0 := hplain.imp fun _ _ h => h.extends hext
  have hstores' : ∀ n, ∀ x ∈ (stateAfter (b.exec later.dict n s.entry) ⟨later.machine, []⟩).stores,
      Apart s.entry (s.entry + (b.size + 4)) x := by
    simpa [hhere] using hstores
  have ha : 4 ∣ s.entry := Memory.dvd_aligned _
  have hmeets := Body.exec_meets (hd.extends hext) hc ha hdefined.fits hplain' hstores' hret
  have haccords {k : Nat} :=
    Body.runFor_accords (k := k) (hd.extends hext) hc ha hdefined.fits hplain' hstores' hret
  refine ⟨fun last => ⟨?_, ?_⟩, fun f m => ⟨?_, ?_⟩⟩
  · rintro ⟨fuel, h⟩
    obtain ⟨m, hrun, hip, rfl⟩ := (runCode_ok_iff hbudget fuel _).mp h
    obtain ⟨n, hn⟩ := haccords (k := fuel) (by rw [hrun]; exact hip)
    rw [hrun] at hn
    generalize e : b.exec later.dict n s.entry ⟨later.machine, []⟩ = x at hn
    cases hn with
    | ended r => exact ⟨n, r, e, rfl⟩
  · rintro ⟨n, r, he, rfl⟩
    rcases hmeets n with ⟨k, hk⟩ | ⟨k, r', m', hu, -⟩
    · rw [he] at hk
      generalize e : later.dict.runFor k _ = y at hk
      cases hk with
      | ended => exact ⟨k, (runCode_ok_iff hbudget k _).mpr ⟨_, e, rfl, rfl⟩⟩
    · rw [he] at hu
      cases hu
  · rintro ⟨fuel, ip, h⟩
    obtain ⟨m', hrun, hm'⟩ := (runCode_fault_iff hbudget fuel _).mp h
    obtain ⟨n, hn⟩ := haccords (k := fuel) (by rw [hrun]; trivial)
    rw [hrun] at hn
    generalize e : b.exec later.dict n s.entry ⟨later.machine, []⟩ = x at hn
    cases hn with
    | failed f r ip' =>
      injection hm' with _ hm'
      exact ⟨n, r, e, (congrArg (Machine.placed · none 0) hm').symm⟩
  · rintro ⟨n, r, he, hrm⟩
    rcases hmeets n with ⟨k, hk⟩ | ⟨k, r', m', hu, -⟩
    · rw [he] at hk
      generalize e : later.dict.runFor k _ = y at hk
      cases hk with
      | failed _ _ ip =>
        have hplaced : r.machine.placed ip later.machine.ret.depth = m.placed ip later.machine.ret.depth := by
          rw [← Machine.placed_placed _ none _ 0, hrm]
          rfl
        exact ⟨k, ip, (runCode_fault_iff hbudget k _).mpr ⟨_, e, by rw [hplaced]⟩⟩
    · rw [he] at hu
      cases hu

/-- An engine that lets a run take its time. -/
def patient : Engine Unit := new { stepBudget := none } () Primitive.words

/-- The text `0 4 0 do i + loop`, which adds up the numbers below four. -/
def sumText : List Phrase :=
  let place : Location := ⟨"sum", 1, 1⟩
  [.word ⟨"0", place⟩, .word ⟨"4", place⟩, .word ⟨"0", place⟩, .control .do_ ⟨"do", place⟩,
   .word ⟨"i", place⟩, .word ⟨"+", place⟩, .control .loop_ ⟨"loop", place⟩]

def sumBody : Body :=
  .seq (.seq (.seq (.seq .empty (.literal 0)) (.literal 4)) (.literal 0))
      (.doLoop (.seq (.seq .empty (.word 55)) (.word 9)))

def sumDefinition : List Phrase :=
  .define .colon ⟨":", ⟨"sum", 1, 1⟩⟩ (some "sum") :: sumText ++ [.control .semicolon ⟨";", ⟨"sum", 1, 1⟩⟩]

/-- The engine that knows `sum`. -/
def summed : Engine Unit := stateAfter (feedAll 0 sumDefinition) patient

theorem reads_sum : Reads patient.dict sumText sumBody ∧ sumBody.Each (Body.Plain patient.dict) 0 := by
  have hsense : patient.dict.sense? "0" = some (.literal 0) ∧ patient.dict.sense? "4" = some (.literal 4) ∧
      patient.dict.sense? "i" = some (.word 55) ∧ patient.dict.sense? "+" = some (.word 9) ∧
      (patient.dict.get? 55).any (·.kind.isOrdinary) = true ∧
      (patient.dict.get? 9).any (·.kind.isOrdinary) = true := by
    decide +kernel
  obtain ⟨h0, h4, hi, hplus, hori, horplus⟩ := hsense
  have hleft : Reads patient.dict _ _ :=
    .literal (t := ⟨"0", ⟨"sum", 1, 1⟩⟩) (.literal (t := ⟨"4", ⟨"sum", 1, 1⟩⟩)
    (.literal (t := ⟨"0", ⟨"sum", 1, 1⟩⟩) .empty h0) h4) h0
  refine ⟨.doLoop _ _ hleft (.word (.word .empty hi) hplus), ?_⟩
  exact ⟨⟨⟨⟨trivial, trivial⟩, trivial⟩, trivial⟩, ⟨trivial, (Option.any_eq_true ..).mp hori⟩,
      (Option.any_eq_true ..).mp horplus⟩

/-- Four rounds are enough, and nothing is stored on the way. -/
theorem exec_sum : succeeds (feedAll 0 sumDefinition) patient = true ∧ summed.dict.entry? "sum" = some 0 ∧
    (summed.machine.memory.here ≤ summed.machine.memory.capacity ∧
      summed.machine.memory.capacity ≤ Cell.maxNat) ∧
    summed.budget = none ∧
    (∀ n < 5, (stateAfter (sumBody.exec summed.dict n 0) ⟨summed.machine, []⟩).stores = []) ∧
    succeeds (sumBody.exec summed.dict 4 0) ⟨summed.machine, []⟩ = true ∧
    (stateAfter (sumBody.exec summed.dict 4 0) ⟨summed.machine, []⟩).machine.ret.depth =
      summed.machine.ret.depth := by
  decide +kernel

theorem compiled_body_correct_sum :
    (feedAll 0 sumDefinition patient = .ok () summed ∧ summed.dict.entry? "sum" = some 0) ∧
    (∀ last, (∃ fuel, runCode fuel 0 summed = .ok () last) ↔
      ∃ n r, sumBody.exec summed.dict n 0 ⟨summed.machine, []⟩ = .ok () r ∧
        last = { summed with machine := r.machine.placed none summed.machine.ret.depth }) ∧
    (∀ f (m : Machine Unit), (∃ fuel ip, runCode fuel 0 summed =
        .error (.fault f) { summed with machine := m.placed ip summed.machine.ret.depth }) ↔
      ∃ n r, sumBody.exec summed.dict n 0 ⟨summed.machine, []⟩ = .error (.fault f) r ∧
        r.machine.placed none 0 = m.placed none 0) := by
  obtain ⟨hreads, hplain⟩ := reads_sum
  obtain ⟨hok, hentry, ⟨hhere, hcapacity⟩, hbudget, hstores, hends, hret⟩ := exec_sum
  have hdef := ok_of_succeeds hok
  have hfour := ok_of_succeeds hends
  have hrooted : patient.dict.Rooted :=
    (Dictionary.sound_initial (fun _ hw => Primitive.isControl_of_mem_words hw) 0).runtime
  have hlater : summed.Retains summed 0 := ⟨.refl _, ⟨hhere, hcapacity⟩, Nat.le_refl _, fun _ _ _ => rfl⟩
  refine ⟨⟨hdef, hentry⟩,
      compiled_body_correct rfl (Memory.valid_empty _) hrooted hreads hplain hdef hentry hlater hbudget
    (fun n x hx => ?_) fun n r h => ?_⟩
  · have hnone : (stateAfter (sumBody.exec summed.dict n 0) ⟨summed.machine, []⟩).stores = [] := by
      rcases Nat.lt_or_ge n 5 with hn | hn
      · exact hstores n hn
      · rw [stateAfter_ok (Body.exec_of_le (Nat.le_of_lt hn) hfour)]
        exact hstores 4 (by omega)
    rw [hnone] at hx
    cases hx
  · rw [Body.exec_unique h hfour]
    exact hret

end Engine

end Handheld
