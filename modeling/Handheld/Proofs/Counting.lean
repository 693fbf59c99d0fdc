/-
  Handheld.Proofs.Counting — how often a counted loop runs its body.

  What the end of a loop tests is a matter of signs, but comes to this: the distance of the
  index above the limit, which lies between zero and 2^32, leaves that range with the next step
  (`crosses_eq_false_iff`). So the indices are the first index and the ones a step on each as
  long as that distance stays in range, however they wrap (`Uncrossed`), and their number can be
  worked out beforehand (`lt_loopRounds_iff`).

  A round of a loop is its body, run to its end, and the instructions at the end of the loop.
  A body that ends in every round and leaves the return stack alone makes the loop go through
  exactly those rounds and take its cells off again; with a step of zero it never ends
  (`counted_loop_rounds`).
-/

import Handheld.Proofs.Grammar
import Handheld.Proofs.Passage

namespace Handheld

variable {σ : Type}

/-! ## Going around -/

namespace Cell

/-- How far it is from one cell up to another, around the end if need be. -/
def gap (v w : Cell) : Nat := ((w.toInt - v.toInt) % 4294967296).toNat

theorem gap_eq (v w : Cell) : (gap v w : Int) = (w.toInt - v.toInt) % 4294967296 := by
  unfold gap
  omega

theorem neg_iff (v : Cell) : v < 0 ↔ v.toBitVec.msb = true := by
  rw [Int32.lt_iff_toInt_lt, BitVec.msb_eq_toInt, decide_eq_true_iff]
  rfl

/-- The cell `n` steps after `v`. -/
def after (v step : Cell) (j : Nat) : Cell := Int32.ofInt (v.toInt + j * step.toInt)

theorem after_zero (v step : Cell) : v.after step 0 = v := by simp [after]

theorem after_succ (v step : Cell) (j : Nat) : v.after step (j + 1) = v.after step j + step := by
  have hsum : v.toInt + (j + 1 : Nat) * step.toInt = v.toInt + j * step.toInt + step.toInt := by grind
  rw [after, after, hsum, Int32.ofInt_add _ step.toInt, Int32.ofInt_toInt]

theorem toNat_after_sub (v limit step : Cell) (j : Nat) :
    ((v.after step j - limit).toUInt32.toNat : Int) =
      (v.toInt - limit.toInt + j * step.toInt) % 4294967296 := by
  have h : v.after step j - limit = Int32.ofInt (v.toInt - limit.toInt + j * step.toInt) := by
    have hdiff : v.toInt - limit.toInt + j * step.toInt = v.toInt + j * step.toInt - limit.toInt := by grind
    rw [hdiff, Int32.ofInt_sub, Int32.ofInt_toInt, after]
  rw [h, ← Int32.toNat_toBitVec, Int32.toBitVec_ofInt, BitVec.toNat_ofInt]
  omega

end Cell

namespace Primitive

/-- A step does not cross if it leaves the distance above the limit in its range. -/
theorem crosses_eq_false_iff (v n : Cell) :
    crosses v n = false ↔ 0 ≤ (v.toUInt32.toNat : Int) + n.toInt ∧
    (v.toUInt32.toNat : Int) + n.toInt < 4294967296 := by
  have hv := v.toBitVec.isLt
  have hn := n.toBitVec.isLt
  have hsigns : crosses v n = true ↔
      (v.toBitVec.msb ^^ (v + n).toBitVec.msb) = true ∧ (n.toBitVec.msb ^^ (v + n).toBitVec.msb) = false := by
    rw [crosses, decide_eq_true_iff, Cell.neg_iff]
    simp
  rw [← Bool.not_eq_true, hsigns, ← Int32.toNat_toBitVec, ← Int32.toInt_toBitVec, BitVec.toInt_eq_toNat_cond]
  simp only [Int32.toBitVec_add, BitVec.msb_eq_decide, BitVec.toNat_add]
  grind

end Primitive

/-- After `j` steps the index of a loop has not crossed its limit yet. -/
def Uncrossed (limit start step : Cell) (j : Nat) : Prop :=
  0 ≤ (Cell.gap limit start : Int) + j * step.toInt ∧
    (Cell.gap limit start : Int) + j * step.toInt < 4294967296

namespace Uncrossed

variable {limit start step : Cell} {j : Nat}

theorem zero : Uncrossed limit start step 0 := by
  have h := Cell.gap_eq limit start
  unfold Uncrossed
  omega

theorem of_step_zero (limit start : Cell) (j : Nat) : Uncrossed limit start 0 j := by
  have h : Uncrossed limit start 0 0 := zero
  unfold Uncrossed at h ⊢
  simpa using h

/-- A round that has begun is followed by another unless the step crosses the limit. -/
theorem succ_iff (h : Uncrossed limit start step j) :
    Uncrossed limit start step (j + 1) ↔ Primitive.crosses (start.after step j - limit) step = false := by
  have hgap := Cell.gap_eq limit start
  have hoffset :
      ((start.after step j - limit).toUInt32.toNat : Int) = Cell.gap limit start + j * step.toInt := by
    unfold Uncrossed at h
    rw [Cell.toNat_after_sub]
    omega
  have hsum : (Cell.gap limit start : Int) + (j + 1 : Nat) * step.toInt =
      Cell.gap limit start + j * step.toInt + step.toInt := by grind
  rw [Primitive.crosses_eq_false_iff, hoffset, Uncrossed, hsum]

end Uncrossed

/-- How many rounds a loop makes whose step is not zero. -/
def loopRounds (limit start step : Cell) : Nat :=
  if 0 < step then
    let up := if Cell.gap start limit = 0 then 4294967296 else Cell.gap start limit
    (up + step.toInt.natAbs - 1) / step.toInt.natAbs
  else Cell.gap limit start / step.toInt.natAbs + 1

theorem lt_loopRounds_iff {limit start step : Cell} (hs : step ≠ 0) {j : Nat} :
    j < loopRounds limit start step ↔ Uncrossed limit start step j := by
  have hne : step.toInt ≠ 0 := fun h => hs (Int32.toInt_inj.mp h)
  have hpos : 0 < step.toInt.natAbs := by omega
  have hgap := Cell.gap_eq limit start
  have hback := Cell.gap_eq start limit
  unfold loopRounds Uncrossed
  by_cases h : 0 < step
  · have hup : 0 ≤ step.toInt := Int.le_of_lt (Int32.lt_iff_toInt_lt.mp h)
    have habs : (j : Int) * step.toInt = (j * step.toInt.natAbs : Nat) := by
      rw [Int.natCast_mul, Int.natAbs_of_nonneg hup]
    have hround :
        (if Cell.gap start limit = 0 then 4294967296 else Cell.gap start limit) + Cell.gap limit start =
        4294967296 := by
      split <;> omega
    rw [if_pos h, Nat.lt_iff_add_one_le, Nat.le_div_iff_mul_le hpos, Nat.succ_mul, habs]
    omega
  · have hdown : step.toInt ≤ 0 := Int.not_lt.mp fun e => h (Int32.lt_iff_toInt_lt.mpr e)
    have habs : (j : Int) * step.toInt = -(j * step.toInt.natAbs : Nat) := by
      rw [Int.natCast_mul, Int.ofNat_natAbs_of_nonpos hdown, Int.mul_neg, Int.neg_neg]
    rw [if_neg h, Nat.lt_succ_iff, Nat.le_div_iff_mul_le hpos, habs]
    omega

/-! ## The loop in memory -/

namespace Primitive

open Machine

variable {m : Machine σ} {data ret : Stack} {limit start index : Cell}

/-- A loop begins with the limit and the first index on the return stack. -/
theorem enterLoop_eq (hdata : m.data = (data.pushed limit).pushed start)
    (hroom : m.ret.depth + 2 ≤ m.ret.capacity) :
    enterLoop.run m = .ok () { m with data := data, ret := (m.ret.pushed limit).pushed start } := by
  have hdepth := m.ret.depth_pushed limit
  rw [run, bind_of_ok (pop_pushed hdata), bind_of_ok (pop_pushed rfl),
    bind_of_ok (rpush_of_room (by simpa using by omega) _),
    rpush_of_room (by show (m.ret.pushed limit).depth < m.ret.capacity; omega)]

/-- Its end moves the index, or takes both cells away. -/
theorem advance_eq (hret : m.ret = (ret.pushed limit).pushed index)
    (hroom : ret.depth + 2 ≤ ret.capacity) (step : Cell) :
    advance step m = if crosses (index - limit) step then .ok false { m with ret := ret }
      else .ok true { m with ret := (ret.pushed limit).pushed (index + step) } := by
  have hdepth := ret.depth_pushed limit
  rw [advance, bind_of_ok (rpop_pushed hret), bind_of_ok (rpeek_pushed rfl)]
  by_cases hc : crosses (index - limit) step = true
  · rw [if_pos hc, if_pos hc, discard_eq, bind_assoc, bind_of_ok (rpop_pushed rfl)]
    rfl
  · rw [if_neg hc, if_neg hc,
      bind_of_ok (rpush_of_room (by show (ret.pushed limit).depth < ret.capacity; omega) _)]
    rfl

end Primitive

/-- The loop runs the body in steps of so much. -/
inductive Counted (body : Body) : Cell → Body → Prop
  | loop : Counted body 1 (.doLoop body)
  | plusLoop (step : Cell) : Counted body step (.doPlusLoop (.seq body (.literal step)))

section

variable {d : Dictionary σ} (hd : d.Rooted) {m : Machine σ} (base : Nat) {a : Nat} {ret : Stack}
    {limit index step : Cell}

include hd

/-- The instruction at the end of a loop goes back to its body or leaves it behind. -/
theorem Dictionary.reaches_of_loop {p : Primitive} (hp : p.isBranch = true) {lo c : Nat}
    {code : List UInt8} {n : Machine σ}
    (hc : m.memory.Carries lo code) (ha : a ≤ Cell.maxNat) (hs : Stands lo code c (Instr.branch p a).bytes)
    (hdecides : p.decides m = Primitive.advance step n) (hret : n.ret = (ret.pushed limit).pushed index)
    (hroom : ret.depth + 2 ≤ ret.capacity) :
    (Primitive.crosses (index - limit) step = false →
      d.Reaches base 1 m c { n with ret := (ret.pushed limit).pushed (index + step) } a) ∧
    (Primitive.crosses (index - limit) step = true → d.Reaches base 1 m c { n with ret := ret } (c + 8)) := by
  have hstep (taken : Bool) (n' : Machine σ) : p.decides m = .ok taken n' →
      d.Reaches base 1 m c n' (if taken then a else c + 8) :=
    fun h => .of_step ((step_branch hc hd hp ha hs).1 taken n' h)
  rw [hdecides, Primitive.advance_eq hret hroom] at hstep
  refine ⟨fun hcross => hstep true _ ?_, fun hcross => hstep false _ ?_⟩
  · rw [hcross]
    rfl
  · rw [hcross]
    rfl

namespace Counted

variable {body loop : Body} (hl : Counted body step loop) {xt : Nat}

include hl

theorem enter {data : Stack} {start : Cell} (hc : m.memory.Carries a (loop.bytes xt a))
    (hdata : m.data = (data.pushed limit).pushed start) (hroom : m.ret.depth + 2 ≤ m.ret.capacity) :
    d.Reaches base 1 m a { m with data := data, ret := (m.ret.pushed limit).pushed start } (a + 4) := by
  have hs : Stands a (loop.bytes xt a) a (Instr.plain .enterLoop).bytes := by
    cases hl <;> exact (Stands.whole ..).left
  refine .of_step ?_
  rw [Dictionary.step_enterLoop hc hd hs, Primitive.enterLoop_eq hdata hroom]
  rfl

/-- Behind the body one instruction or two decide whether there is another round. -/
theorem close (hc : m.memory.Carries a (loop.bytes xt a)) (hret : m.ret = (ret.pushed limit).pushed index)
    (hroom : ret.depth + 2 ≤ ret.capacity)
    (hdata : ∀ c, loop = .doPlusLoop c → m.data.depth < m.data.capacity) :
    ∃ k, (1 ≤ k ∧ k ≤ 2) ∧
      (Primitive.crosses (index - limit) step = false →
        d.Reaches base k m (a + 4 + body.size)
          { m with ret := (ret.pushed limit).pushed (index + step) } (a + 4)) ∧
      (Primitive.crosses (index - limit) step = true →
        d.Reaches base k m (a + 4 + body.size) { m with ret := ret } (a + loop.size)) := by
  have hmax := Nat.le_trans hc.inside hc.valid.here_le_maxNat
  rw [Body.length_bytes] at hmax
  cases hl with
  | loop =>
    simp only [Body.size] at hmax ⊢
    have hs :
        Stands a ((Body.doLoop body).bytes xt a) (a + 4 + body.size) (Instr.branch .loop (a + 4)).bytes :=
      (Stands.whole ..).afterPlain.afterBody
    have hturn := Dictionary.reaches_of_loop hd base rfl hc (by omega) hs rfl hret hroom
    rw [show a + (4 + (body.size + 8)) = a + 4 + body.size + 8 by omega]
    exact ⟨1, ⟨by omega, by omega⟩, hturn⟩
  | plusLoop =>
    simp only [Body.size] at hmax ⊢
    have hs : Stands a ((Body.doPlusLoop (.seq body (.literal step))).bytes xt a) (a + 4) _ :=
      (Stands.whole ..).afterPlain
    have hfirst :
        d.Reaches base 1 m (a + 4 + body.size) { m with data := m.data.pushed step }
          (a + 4 + body.size + 8) := by
      refine .of_step ?_
      rw [Dictionary.step_literal hc hd hs.left.afterBody, Machine.push_of_room (hdata _ rfl)]
      rfl
    -- the step is pushed and taken off again at once
    have hdecides :
        Primitive.plusLoop.decides { m with data := m.data.pushed step } = Primitive.advance step m :=
      bind_of_ok (Machine.pop_pushed rfl)
    have hturn :=
      Dictionary.reaches_of_loop (m := { m with data := m.data.pushed step }) hd base rfl hc (by omega)
      hs.afterBody hdecides hret hroom
    have hend : a + 4 + (Body.seq body (.literal step)).size = a + 4 + body.size + 8 := by
      simp only [Body.size]
      omega
    rw [hend] at hturn
    rw [show a + (4 + (body.size + 8 + 8)) = a + 4 + body.size + 8 + 8 by omega]
    exact ⟨2, ⟨by omega, by omega⟩, fun h => hfirst.trans (hturn.1 h), fun h => hfirst.trans (hturn.2 h)⟩

end Counted

end

/-! ## Rounds -/

/-- A counted loop in a definition: the token of the definition, the address of the loop, its
    code, and what it counts. -/
structure CountedLoop where
  xt : Nat
  addr : Nat
  body : Body
  code : Body
  limit : Cell
  start : Cell
  step : Cell
  counted : Counted body step code

namespace CountedLoop

/-- Where the body begins. -/
def first (l : CountedLoop) : Nat := l.addr + 4

/-- Where it ends. -/
def last (l : CountedLoop) : Nat := l.addr + 4 + l.body.size

/-- Where the code behind the loop begins. -/
def behind (l : CountedLoop) : Nat := l.addr + l.code.size

def bytes (l : CountedLoop) : List UInt8 := l.code.bytes l.xt l.addr

/-- The index of the round `j`. -/
def index (l : CountedLoop) (j : Nat) : Cell := l.start.after l.step j

/-- The indices of all rounds, if there is a last one. -/
def indices (l : CountedLoop) : List Cell := (List.range (loopRounds l.limit l.start l.step)).map l.index

/-- The return stack in the round `j`, of a loop that was entered with `ret`. -/
def frame (l : CountedLoop) (ret : Stack) (j : Nat) : Stack := (ret.pushed l.limit).pushed (l.index j)

/-- A round: the body comes to its end and leaves the return stack as it was, and the index is
    what `i` gives. -/
structure Round (l : CountedLoop) (d : Dictionary σ) (base : Nat) (index : Cell) (m m' : Machine σ) :
    Prop where
  index : Primitive.copyReturn.run m = Machine.push index m
  runs : ∃ k, d.Reaches base k m l.first m' l.last
  ret : m'.ret = m.ret

/-- The loop goes through rounds with these indices, one after the other, and is left. Behind
    the body of a round there are no more than the one instruction or two at the loop's end. -/
inductive Turns (l : CountedLoop) (d : Dictionary σ) (base : Nat) : List Cell → Machine σ → Machine σ → Prop
  | leave {index : Cell} {m m' m'' : Machine σ} {k : Nat} (hk : k ≤ 2) : l.Round d base index m m' →
      d.Reaches base k m' l.last m'' l.behind → Turns l d base [index] m m''
  | again {index : Cell} {rest : List Cell} {m m' m₁ m₂ : Machine σ} {k : Nat} (hk : k ≤ 2) :
      l.Round d base index m m' →
      d.Reaches base k m' l.last m₁ l.first → Turns l d base rest m₁ m₂ → Turns l d base (index :: rest) m m₂

/-- The body ends in the round `j` and leaves the return stack as it found it, if `P` holds at
    its beginning; the loop is still there, with room for its step, and `P` holds at the
    beginning of the next round. -/
def Ends (l : CountedLoop) (d : Dictionary σ) (base : Nat) (ret : Stack) (P : Nat → Machine σ → Prop)
    (j : Nat) : Prop :=
  ∀ m, P j m → m.ret = l.frame ret j → m.memory.Carries l.addr l.bytes →
    ∃ k m', d.Reaches base k m l.first m' l.last ∧ m'.ret = m.ret ∧ m'.memory.Carries l.addr l.bytes ∧
      (∀ c, l.code = .doPlusLoop c → m'.data.depth < m'.data.capacity) ∧
      P (j + 1) { m' with ret := l.frame ret (j + 1) }

section

variable {l : CountedLoop} {d : Dictionary σ} {base j : Nat} {ret : Stack} {P : Nat → Machine σ → Prop}
    {m : Machine σ}

theorem Turns.reaches {indices : List Cell} {m' : Machine σ} (h : l.Turns d base indices m m') :
    ∃ k, d.Reaches base k m l.first m' l.behind := by
  induction h with
  | leave _ hr hend =>
    obtain ⟨k, hrun⟩ := hr.runs
    exact ⟨_, hrun.trans hend⟩
  | again _ hr hback _ ih =>
    obtain ⟨k, hrun⟩ := hr.runs
    obtain ⟨k', hrest⟩ := ih
    exact ⟨_, (hrun.trans hback).trans hrest⟩

/-- The machine is at the beginning of the round `j`. -/
structure Begins (l : CountedLoop) (ret : Stack) (P : Nat → Machine σ → Prop) (j : Nat)
    (m : Machine σ) : Prop where
  holds : P j m
  ret : m.ret = l.frame ret j
  code : m.memory.Carries l.addr l.bytes

variable (hd : d.Rooted) (hroom : ret.depth + 2 ≤ ret.capacity)

include hd hroom

/-- A round that begins ends, and what is at the end of the loop begins the next one, or leaves
    the loop with its cells taken off. -/
theorem Begins.round (hb : l.Begins ret P j m) (he : l.Ends d base ret P j)
    (hu : Uncrossed l.limit l.start l.step j) :
    ∃ m' k, l.Round d base (l.index j) m m' ∧ 1 ≤ k ∧ k ≤ 2 ∧
      (Uncrossed l.limit l.start l.step (j + 1) → ∃ m₁, d.Reaches base k m' l.last m₁ l.first ∧
        l.Begins ret P (j + 1) m₁) ∧
      (¬ Uncrossed l.limit l.start l.step (j + 1) →
        ∃ m₂, d.Reaches base k m' l.last m₂ l.behind ∧ m₂.ret = ret) := by
  obtain ⟨n, m', hrun, hret, hcode, hdata, hnext⟩ := he m hb.holds hb.ret hb.code
  obtain ⟨k, ⟨hk, hk'⟩, hback, hleave⟩ := l.counted.close hd base hcode (hret.trans hb.ret) hroom hdata
  have hindex : Primitive.copyReturn.run m = Machine.push (l.index j) m :=
    bind_of_ok (Machine.rpeek_pushed hb.ret)
  refine ⟨m', k, ⟨hindex, ⟨n, hrun⟩, hret⟩, hk, hk', fun h => ?_, fun h => ?_⟩
  · have hmoved : l.index j + l.step = l.index (j + 1) := (Cell.after_succ ..).symm
    rw [hmoved] at hback
    exact ⟨_, hback (hu.succ_iff.mp h), hnext, rfl, hcode⟩
  · exact ⟨_, hleave (eq_true_of_ne_false fun e => h (hu.succ_iff.mpr e)), rfl⟩

/-- From the round `j` on, a loop with `n` rounds to go goes through them and is left. -/
theorem Begins.turns {n : Nat} (hb : l.Begins ret P j m) (hs : l.step ≠ 0)
    (hn : j + (n + 1) = loopRounds l.limit l.start l.step)
    (he : ∀ i < loopRounds l.limit l.start l.step, l.Ends d base ret P i) :
    ∃ m', l.Turns d base ((List.range' j (n + 1)).map l.index) m m' ∧ m'.ret = ret := by
  induction n generalizing j m with
  | zero =>
    obtain ⟨m', k, hround, -, hk, -, hleave⟩ :=
      hb.round hd hroom (he j (by omega)) ((lt_loopRounds_iff hs).mp (by omega))
    obtain ⟨m₂, hrun, hret⟩ := hleave fun h => by
      have := (lt_loopRounds_iff hs).mpr h
      omega
    exact ⟨m₂, .leave hk hround hrun, hret⟩
  | succ n ih =>
    obtain ⟨m', k, hround, -, hk, hagain, -⟩ :=
      hb.round hd hroom (he j (by omega)) ((lt_loopRounds_iff hs).mp (by omega))
    obtain ⟨m₁, hrun, hb₁⟩ := hagain ((lt_loopRounds_iff hs).mp (by omega))
    obtain ⟨m₂, hturns, hret⟩ := ih hb₁ (by omega)
    exact ⟨m₂, .again hk hround hrun hturns, hret⟩

/-- With a step of zero each round is followed by another. -/
theorem Begins.endless (hb : l.Begins ret P 0 m) (hs : l.step = 0) (he : ∀ i, l.Ends d base ret P i)
    (j : Nat) : ∃ k m', j ≤ k ∧ d.Reaches base k m l.first m' l.first ∧ l.Begins ret P j m' := by
  have hu (i : Nat) : Uncrossed l.limit l.start l.step i := by
    rw [hs]
    exact .of_step_zero ..
  induction j with
  | zero => exact ⟨0, m, Nat.le_refl 0, .refl m _, hb⟩
  | succ j ih =>
    obtain ⟨k, m₁, hj, hrun, hb₁⟩ := ih
    obtain ⟨m₂, i, hround, hi, -, hagain, -⟩ := hb₁.round hd hroom (he j) (hu j)
    obtain ⟨n, hbody⟩ := hround.runs
    obtain ⟨m₃, hback, hb₃⟩ := hagain (hu (j + 1))
    exact ⟨k + (n + i), m₃, by omega, hrun.trans (hbody.trans hback), hb₃⟩

end

end CountedLoop

namespace Engine

open CountedLoop

/-- For all bounds and every step, a loop of a definition, entered with its limit and first index
    on the stack, and with a body that ends in every round and leaves the return stack as it
    found it: the body is run exactly as often as the bounds and the step say, with the indices
    they give, and then the loop is left with the return stack as before; with a step of zero it
    is never left. -/
theorem counted_loop_rounds {s s₁ later : Engine σ} {fuel₀ base : Nat} {t u : Token} {w : String}
    {ps : List Phrase} {b : Body}
    (hm : s.mode = .run) (hv : s.machine.memory.Valid) (hd : s.dict.Rooted) (hr : Reads s.dict ps b)
    (hdef : feedAll fuel₀ (.define .colon t (some w) :: ps ++ [.control .semicolon u]) s = .ok () s₁)
    (hlater : s₁.Retains later s.entry) {l : CountedLoop} (hxt : l.xt = s.dict.size)
    (hl : l.code.Inside l.addr b s.entry)
    {data : Stack} (hdata : later.machine.data = (data.pushed l.limit).pushed l.start)
    (hroom : later.machine.ret.depth + 2 ≤ later.machine.ret.capacity) {P : Nat → Machine σ → Prop}
    (hP : P 0 { later.machine with data := data, ret := l.frame later.machine.ret 0 })
    (hbody : ∀ j, (l.step ≠ 0 → j < loopRounds l.limit l.start l.step) →
      l.Ends later.dict base later.machine.ret P j) :
    (l.step ≠ 0 → ∃ m k, l.Turns later.dict base l.indices
        { later.machine with data := data, ret := l.frame later.machine.ret 0 } m ∧
      later.dict.Reaches base k later.machine l.addr m l.behind ∧ m.ret = later.machine.ret) ∧
    (l.step = 0 → ∀ fuel, ∃ m, later.dict.runFor fuel (later.machine.placed (some l.addr) base) = .ok () m ∧
      m.ip.isSome = true) := by
  have hdefined := defined_of_reads hv hm hr hdef
  have hrooted := hdefined.rooted hlater hd
  have hcode : later.machine.memory.Carries l.addr l.bytes := by
    rw [CountedLoop.bytes, hxt]
    exact hdefined.retained_part hlater hl
  have hstart : l.index 0 = l.start := Cell.after_zero ..
  have henter : later.dict.Reaches base 1 later.machine l.addr
      { later.machine with data := data, ret := l.frame later.machine.ret 0 } l.first := by
    rw [frame, hstart]
    exact l.counted.enter hrooted base hcode hdata hroom
  have hbegins : l.Begins later.machine.ret P 0
      { later.machine with data := data, ret := l.frame later.machine.ret 0 } :=
    ⟨hP, rfl, hcode⟩
  constructor
  · intro hs
    have hsome : 0 < loopRounds l.limit l.start l.step := (lt_loopRounds_iff hs).mpr .zero
    have hn : 0 + (loopRounds l.limit l.start l.step - 1 + 1) = loopRounds l.limit l.start l.step := by omega
    obtain ⟨m, hturns, hret⟩ := hbegins.turns hrooted hroom hs hn fun i hi => hbody i fun _ => hi
    rw [Nat.sub_add_cancel hsome, ← List.range_eq_range'] at hturns
    obtain ⟨k, hrun⟩ := hturns.reaches
    exact ⟨m, _, hturns, henter.trans hrun, hret⟩
  · intro hs fuel
    have hall (j : Nat) := hbody j fun h => absurd hs h
    obtain ⟨k, m, hk, hrun, -⟩ := hbegins.endless hrooted hroom hs hall fuel
    exact (henter.trans hrun).going (by omega)

theorem Retains.withData {s : Engine σ} (hv : s.machine.memory.Valid) (data : Stack) (lo : Nat) :
    s.Retains (s.withData data) lo :=
  ⟨.refl _, hv, Nat.le_refl _, fun _ _ _ => rfl⟩

/-- A loop over the border between the largest cell and the smallest. -/
def lapText : List Phrase := (Source.ofText "lap" "0 -2147483646 2147483646 do i + 2 +loop").phrases

def lapDefinition : List Phrase :=
  .define .colon ⟨":", ⟨"lap", 1, 1⟩⟩ (some "lap") :: lapText ++ [.control .semicolon ⟨";", ⟨"lap", 2, 1⟩⟩]

def lapLoop : CountedLoop where
  xt := patient.dict.size
  addr := 24
  body := .seq (.seq .empty (.word 55)) (.word 9)
  code := .doPlusLoop (.seq (.seq (.seq .empty (.word 55)) (.word 9)) (.literal 2))
  limit := -2147483646
  start := 2147483646
  step := 2
  counted := .plusLoop 2

def lapBody : Body :=
  .seq (.seq (.seq (.seq .empty (.literal 0)) (.literal (-2147483646))) (.literal 2147483646)) lapLoop.code

/-- The engine that knows `lap`. -/
def lapped : Engine Unit := stateAfter (feedAll 0 lapDefinition) patient

/-- And that engine where the loop begins. -/
def lapping : Engine Unit :=
  lapped.withData (((lapped.machine.data.pushed 0).pushed lapLoop.limit).pushed lapLoop.start)

theorem lapped_facts : succeeds (feedAll 0 lapDefinition) patient = true ∧
    Spot.start.readAll patient.dict lapText = some ⟨.top, lapBody⟩ ∧
    (lapped.machine.memory.here ≤ lapped.machine.memory.capacity ∧
      lapped.machine.memory.capacity ≤ Cell.maxNat) ∧
    lapped.machine.data.depth + 2 ≤ lapped.machine.data.capacity ∧
    lapping.machine.ret.depth + 2 ≤ lapping.machine.ret.capacity ∧ patient.entry = 0 ∧
    lapLoop.indices = [2147483646, -2147483648] := by
  decide +kernel

/-- `i +` adds the index to the sum under it. -/
theorem add_index {m : Machine σ} {rest ret : Stack} {sum index : Cell} (hdata : m.data = rest.pushed sum)
    (hret : m.ret = ret.pushed index) (hroom : rest.depth + 2 ≤ rest.capacity) :
    Primitive.copyReturn.run m = .ok () { m with data := (rest.pushed sum).pushed index } ∧
    Primitive.add.run { m with data := (rest.pushed sum).pushed index } =
      .ok () { m with data := rest.pushed (sum + index) } := by
  have hdepth := rest.depth_pushed sum
  constructor
  · rw [Primitive.run, bind_of_ok (Machine.rpeek_pushed hret),
      Machine.push_of_room (by rw [hdata, hdepth]; exact hroom), hdata]
  · rw [Primitive.run, Primitive.binary, bind_of_ok (Machine.pop_pushed rfl),
      bind_of_ok (Machine.pop_pushed rfl),
      Machine.push_of_room (by show rest.depth < rest.capacity; omega)]

/-- So the rounds of the loop end, on any stack with room for two cells. -/
theorem lapLoop_ends {d : Dictionary σ} (hi : d.get? 55 = some ⟨.ofString "i", .builtin .copyReturn, false⟩)
    (hplus : d.get? 9 = some ⟨.ofString "+", .builtin .add, false⟩) {rest : Stack}
    (hroom : rest.depth + 2 ≤ rest.capacity) (base : Nat) (ret : Stack) (j : Nat) :
    lapLoop.Ends d base ret (fun _ m => ∃ sum, m.data = rest.pushed sum) j := by
  intro m ⟨sum, hdata⟩ hret hc
  have hbody : Stands lapLoop.addr lapLoop.bytes 28 (lapLoop.body.bytes lapLoop.xt 28) :=
    (Stands.whole ..).afterPlain.left.left
  obtain ⟨hpush, hadd⟩ := add_index hdata hret hroom
  have hfirst : d.Reaches base 1 m 28 _ 32 :=
    Dictionary.reaches_of_word hc (by decide) hi rfl hbody.left.afterBody hpush
  have hsecond : d.Reaches base 1 { m with data := (rest.pushed sum).pushed (lapLoop.index j) } 32 _ 36 :=
    Dictionary.reaches_of_word (m := { m with data := _ }) hc (by decide) hplus rfl hbody.afterBody hadd
  refine ⟨2, _, hfirst.trans hsecond, rfl, hc, fun _ _ => ?_, sum + lapLoop.index j, rfl⟩
  show (rest.pushed (sum + lapLoop.index j)).depth < rest.capacity
  rw [Stack.depth_pushed]
  omega

theorem counted_loop_rounds_lap :
    (Reads patient.dict lapText lapBody ∧ feedAll 0 lapDefinition patient = .ok () lapped ∧
      lapped.Retains lapping patient.entry ∧ lapLoop.code.Inside lapLoop.addr lapBody patient.entry ∧
      lapLoop.step ≠ 0) ∧
    ∃ m k, lapLoop.Turns lapping.dict 0 [2147483646, -2147483648]
        { lapping.machine with
          data := lapped.machine.data.pushed 0, ret := lapLoop.frame lapping.machine.ret 0 } m ∧
      lapping.dict.Reaches 0 k lapping.machine lapLoop.addr m lapLoop.behind ∧
      m.ret = lapping.machine.ret := by
  obtain ⟨hok, hread, ⟨hhere, hcapacity⟩, hroom, hret, hentry, hindices⟩ := lapped_facts
  have hdef := ok_of_succeeds hok
  have hreads := reads_iff_readAll.mpr hread
  have hrooted : patient.dict.Rooted :=
    (Dictionary.sound_initial (fun _ hw => Primitive.isControl_of_mem_words hw) 0).runtime
  have hlater : lapped.Retains lapping patient.entry := .withData ⟨hhere, hcapacity⟩ _ _
  have hinside : lapLoop.code.Inside lapLoop.addr lapBody patient.entry := by
    rw [hentry]
    exact .second .whole
  have hstep : lapLoop.step ≠ 0 := by decide
  have hdict : lapping.dict = (patient.dict.push "lap" (.compiled patient.entry)).2 := by
    rw [lapping, dict_withData]
    exact (defined_of_reads (Memory.valid_empty _) rfl hreads hdef).dict
  have hi : lapping.dict.get? 55 = some ⟨.ofString "i", .builtin .copyReturn, false⟩ := by rw [hdict]; rfl
  have hplus : lapping.dict.get? 9 = some ⟨.ofString "+", .builtin .add, false⟩ := by rw [hdict]; rfl
  have hdata :
      lapping.machine.data = ((lapped.machine.data.pushed 0).pushed lapLoop.limit).pushed lapLoop.start := by
    rw [lapping, data_withData]
  have hrounds :=
    (counted_loop_rounds rfl (Memory.valid_empty _) hrooted hreads hdef hlater rfl hinside hdata hret ⟨0, rfl⟩
    fun j _ => lapLoop_ends hi hplus hroom 0 _ j).1 hstep
  rw [hindices] at hrounds
  exact ⟨⟨hreads, hdef, hlater, hinside, hstep⟩, hrounds⟩

end Engine

end Handheld
