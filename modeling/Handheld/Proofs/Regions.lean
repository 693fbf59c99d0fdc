/-
  Handheld.Proofs.Regions — regions of memory that are handed out never meet.

  Memory is asked for bytes in five ways, and may be stored into anywhere in between, above the free
  end too. `Call.outcome` says once what one call can do: an allocation that fits takes the bytes
  from its start up to the new free end, a store that fits leaves the free end where it is, and a
  call that does not fit fails. A history is a memory with the regions it has handed out; every
  region lies below the free end (`Tracked`), the next begins there or above it, so no two of them
  share a byte, and what was asked for stands in it whatever was stored there before.
-/

import Handheld.Proofs.Allocation

namespace Handheld

namespace Memory

/-! ## Calls -/

/-- An allocation or a store. -/
inductive Call where
  | bump (len : Nat)
  | align
  | bumpCell (v : Cell)
  | bumpBytes (data : List UInt8)
  | allot (n : Cell)
  | storeByte (a : Nat) (v : UInt8)
  | storeCell (a : Nat) (v : Cell)

namespace Call

/-- Performs a call and gives the address of the region it hands out, if it hands one out. -/
def run : Call → Op (Option Nat)
  | .bump len => do return some (← Memory.bump len)
  | .align => do
    Memory.align
    return none
  | .bumpCell v => do return some (← Memory.bumpCell v)
  | .bumpBytes data => do return some (← Memory.bumpBytes data)
  | .allot n => do return some (← Memory.allot n)
  | .storeByte a v => do
    Memory.storeByte a v
    return none
  | .storeCell a v => do
    Memory.storeCell a v
    return none

def allocates : Call → Bool
  | .storeByte .. | .storeCell .. => false
  | _ => true

/-- Where an allocation starts: at the free end, or at the cell boundary there. -/
def start (m : Memory) : Call → Nat
  | .align | .bumpCell _ => aligned m.here
  | _ => m.here

/-- The bytes that an allocation asks for. -/
def content : Call → List UInt8
  | .bump len => List.replicate len 0
  | .bumpCell v => v.toBytes
  | .bumpBytes data => data
  | .allot n => List.replicate n.toInt.toNat 0
  | _ => []

/-- The address behind what a call writes. -/
def stop (m : Memory) : Call → Nat
  | .storeByte a _ => a + 1
  | .storeCell a _ => a + 4
  | c => c.start m + c.content.length

/-- There is room for what a call writes, and it does not ask for less than nothing. -/
def Fits (m : Memory) (c : Call) : Prop := c.stop m ≤ m.capacity ∧ ∀ n, c = .allot n → 0 ≤ n.toInt

/-- Where an allocation that hands out a region says it is. -/
def answer (m : Memory) : Call → Option Nat
  | .align | .storeByte .. | .storeCell .. => none
  | c => some (c.start m)

end Call

/-! ## What one call does -/

theorem Call.here_le_start (c : Call) {m : Memory} (hv : m.Valid) : m.here ≤ c.start m := by
  have hle := le_aligned hv.here_le_maxNat
  cases c with
  | align => exact hle
  | bumpCell v => exact hle
  | _ => exact Nat.le_refl _

theorem Call.answer_cases (c : Call) (m : Memory) : c.answer m = none ∨ c.answer m = some (c.start m) := by
  cases c with
  | align => exact .inl rfl
  | storeByte a v => exact .inl rfl
  | storeCell a v => exact .inl rfl
  | _ => exact .inr rfl

/-- The bytes from `start` to the new free end were taken and hold what was asked for. -/
structure Takes (start : Nat) (content : List UInt8) (m m' : Memory) : Prop extends Grows m m' where
  here : m'.here = start + content.length
  holds : m'.Holds start content

theorem Appends.takes {m m' : Memory} {pad : Nat} {content : List UInt8}
    (h : Appends m (List.replicate pad 0 ++ content) m') : Takes (m.here + pad) content m m' where
  toGrows := h.toGrows
  here := by rw [h.here, List.length_append, List.length_replicate, Nat.add_assoc]
  holds := by
    have hbehind := (Memory.holds_append.mp h.appended).2
    rwa [List.length_replicate] at hbehind

theorem Appends.takes_here {m m' : Memory} {content : List UInt8} (h : Appends m content m') :
    Takes m.here content m m' where
  toGrows := h.toGrows
  here := h.here
  holds := h.appended

theorem Takes.stop_le {m m' : Memory} {start : Nat} {content : List UInt8}
    (h : Takes start content m m') (hv : m.Valid) : start + content.length ≤ m.capacity := by
  rw [← h.here, ← h.capacity]
  exact h.inside hv.here_le

theorem Takes.fetchBytes {m m' : Memory} {start : Nat} {content : List UInt8}
    (h : Takes start content m m') (hv : m.Valid) :
    fetchBytes start content.length m' = .ok content m' := by
  have hroom : start + content.length ≤ m'.capacity := by
    rw [h.capacity]
    exact h.stop_le hv
  rw [fetchBytes_eq, if_pos (inBounds_iff.mpr hroom), h.holds]

/-- How a call ends, and what it leaves. -/
inductive Call.Outcome (c : Call) (m : Memory) : Prop where
  | allocated (m' : Memory) : c.allocates = true → c.Fits m → c.run m = .ok (c.answer m) m' →
      Takes (c.start m) c.content m m' → Outcome c m
  | stored (m' : Memory) (a len : Nat) : c.allocates = false → c.Fits m → c.run m = .ok none m' →
      Stores a len m m' → Outcome c m
  | failed (e : MemoryFault) (m' : Memory) : ¬ c.Fits m → c.run m = .error e m' → Grows m m' →
      m' = m ∨ (∃ v, c = .bumpCell v) ∧ m'.here = aligned m.here → Outcome c m

section

variable {m m' : Memory} {c : Call}

theorem Call.stop_of_allocates (h : c.allocates = true) : c.stop m = c.start m + c.content.length := by
  cases c with
  | storeByte => cases h
  | storeCell => cases h
  | _ => rfl

/-- An allocation whose bytes were taken had room for them. -/
theorem Call.Outcome.of_takes (hv : m.Valid) (hc : c.allocates = true)
    (hsign : ∀ n, c = .allot n → 0 ≤ n.toInt)
    (hrun : c.run m = .ok (c.answer m) m') (h : Takes (c.start m) c.content m m') : Outcome c m := by
  refine .allocated m' hc ⟨?_, hsign⟩ hrun h
  rw [stop_of_allocates hc]
  exact h.stop_le hv

/-- A call that found no room may leave the memory as it was. -/
theorem Call.Outcome.of_error {e : MemoryFault} (hrun : c.run m = .error e m)
    (h : m.capacity < c.stop m) : Outcome c m :=
  .failed e m (fun hfits => Nat.not_le.mpr h hfits.1) hrun (Grows.ordered.refl m) (.inl rfl)

/-- A call that takes zeroed bytes at the free end. -/
theorem Call.Outcome.of_bump {len : Nat} (hv : m.Valid) (hc : c.allocates = true)
    (hsign : ∀ n, c = .allot n → 0 ≤ n.toInt)
    (hrun : c.run = do return some (← Memory.bump len)) (hstart : c.start m = m.here)
    (hanswer : c.answer m = some m.here)
    (hcontent : c.content = List.replicate len 0) : Outcome c m := by
  rcases h : Memory.bump len m with ⟨a, m'⟩ | ⟨e, m'⟩
  · obtain ⟨rfl, happends⟩ := bump_appends h
    have hok : c.run m = .ok (c.answer m) m' := by rw [hrun, bind_of_ok h, hanswer, pure_apply]
    refine .of_takes hv hc hsign hok ?_
    rw [hstart, hcontent]
    exact happends.takes_here
  · obtain rfl := bump_error h
    have herror : c.run m' = .error e m' := by rw [hrun, bind_of_error h]
    refine .of_error herror ?_
    rw [stop_of_allocates hc, hstart, hcontent, List.length_replicate]
    exact lt_of_bump_error h

/-- A call that writes to a range, if that is in bounds. -/
theorem Call.Outcome.of_store {op : Op Unit} {a len : Nat} {e : MemoryFault} (hc : c.allocates = false)
    (hstop : c.stop m = a + len)
    (hrun : c.run = do op; return none) (hop : op m = if m.inBounds a len then .ok () m' else .error e m)
    (hstores : Stores a len m m') : Outcome c m := by
  by_cases hroom : m.inBounds a len = true
  · rw [if_pos hroom] at hop
    have hok : c.run m = .ok none m' := by rw [hrun, bind_of_ok hop, pure_apply]
    refine .stored m' a len hc ⟨?_, ?_⟩ hok hstores
    · rw [hstop]
      exact inBounds_iff.mp hroom
    · rintro n rfl
      cases hc
  · rw [if_neg hroom] at hop
    have herror : c.run m = .error e m := by rw [hrun, bind_of_error hop]
    refine .of_error herror ?_
    rw [hstop]
    exact Nat.not_le.mp (mt inBounds_iff.mpr hroom)

theorem bumpBytes_outcome (hv : m.Valid) (data : List UInt8) : Call.Outcome (.bumpBytes data) m := by
  rcases h : bumpBytes data m with ⟨a, m'⟩ | ⟨e, m'⟩
  · obtain ⟨rfl, happends⟩ := bumpBytes_appends h
    exact .of_takes hv rfl (by rintro _ ⟨⟩) (bind_of_ok h) happends.takes_here
  · rcases bind_error_iff.mp h with hbump | ⟨a, m₁, -, hwrite⟩
    · obtain rfl := bump_error hbump
      exact .of_error (bind_of_error h) (lt_of_bump_error hbump)
    · cases hwrite

theorem allot_outcome (hv : m.Valid) (n : Cell) : Call.Outcome (.allot n) m := by
  by_cases hneg : n.toInt < 0
  · have hallot : allot n = throw (.negativeAllot n) := by rw [allot, Cell.toNat?_eq, if_pos hneg]
    have hrun : (Call.allot n).run m = .error (.negativeAllot n) m := by
      rw [Call.run, hallot]
      exact bind_of_error (throw_apply ..)
    refine .failed _ m (fun hfits => ?_) hrun (Grows.ordered.refl m) (.inl rfl)
    exact Int.not_le.mpr hneg (hfits.2 n rfl)
  · have hallot : allot n = bump n.toInt.toNat := by rw [allot, Cell.toNat?_eq, if_neg hneg]
    refine .of_bump hv rfl ?_ (by rw [Call.run, hallot]) rfl rfl rfl
    rintro _ ⟨⟩
    exact Int.not_lt.mp hneg

theorem align_takes (hv : m.Valid) (h : align m = .ok () m') : Takes (aligned m.here) [] m m' where
  toGrows := (align_appends h).toGrows
  here := here_align hv h
  holds := rfl

theorem lt_of_align_error {e : MemoryFault} (hv : m.Valid) (h : align m = .error e m') :
    m.capacity < aligned m.here := by
  have hle := le_aligned hv.here_le_maxNat
  rw [align_eq, discard_eq] at h
  rcases bind_error_iff.mp h with hbump | ⟨a, m₁, -, hdone⟩
  · have := lt_of_bump_error hbump
    omega
  · cases hdone

theorem align_outcome (hv : m.Valid) : Call.Outcome .align m := by
  rcases h : align m with ⟨_, m'⟩ | ⟨e, m'⟩
  · exact .of_takes hv rfl (by rintro _ ⟨⟩) (bind_of_ok h) (align_takes hv h)
  · obtain rfl := align_error h
    exact .of_error (bind_of_error h) (lt_of_align_error hv h)

theorem bumpCell_outcome (hv : m.Valid) (v : Cell) : Call.Outcome (.bumpCell v) m := by
  have hle := le_aligned hv.here_le_maxNat
  rcases h : bumpCell v m with ⟨a, m'⟩ | ⟨e, m'⟩
  · obtain ⟨rfl, happends⟩ := bumpCell_appends h
    have htakes := happends.takes
    rw [Nat.add_sub_cancel' hle] at h htakes
    exact .of_takes hv rfl (by rintro _ ⟨⟩) (bind_of_ok h) htakes
  · rcases bumpCell_error h with halign | ⟨halign, hfull⟩
    · obtain rfl := align_error halign
      exact .of_error (bind_of_error h) (Nat.lt_add_right 4 (lt_of_align_error hv halign))
    · have htakes := align_takes hv halign
      have hhere : m'.here = aligned m.here := htakes.here
      rw [hhere, htakes.capacity] at hfull
      exact .failed e m' (fun hfits => Nat.not_le.mpr hfull hfits.1) (bind_of_error h) htakes.toGrows
          (.inr ⟨⟨v, rfl⟩, hhere⟩)

/-- Every call ends in one of these ways. -/
theorem Call.outcome (c : Call) (hv : m.Valid) : c.Outcome m := by
  cases c with
  | bump len => exact .of_bump hv rfl (by rintro _ ⟨⟩) rfl rfl rfl rfl
  | align => exact align_outcome hv
  | bumpCell v => exact bumpCell_outcome hv v
  | bumpBytes data => exact bumpBytes_outcome hv data
  | allot n => exact allot_outcome hv n
  | storeByte a v => exact .of_store rfl rfl rfl (storeByte_eq a v m) (setBytes_stores m a [v])
  | storeCell a v => exact .of_store rfl rfl rfl (storeCell_eq a v m) (setBytes_stores m a v.toBytes)

end

/-! ## Histories -/

/-- A memory, and the address and length of each region it has handed out. -/
structure History where
  memory : Memory
  regions : List (Nat × Nat)

namespace History

/-- A memory of the size asked for that nothing was taken from. -/
def start (capacity : Nat) : History := ⟨.empty capacity, []⟩

/-- The region that a call hands out. -/
def handed (c : Call) (m : Memory) : List (Nat × Nat) :=
  match c.run m with
  | .ok (some a) _ => [(a, c.content.length)]
  | _ => []

/-- A call that fails hands out nothing, and what it left behind stays. -/
def call (h : History) (c : Call) : History := ⟨stateAfter c.run h.memory, h.regions ++ handed c h.memory⟩

def calls (h : History) (cs : List Call) : History := cs.foldl call h

/-- All regions lie below the free end, each above those before it, in a memory of the size asked for. -/
structure Tracked (capacity : Nat) (h : History) : Prop where
  size : h.memory.capacity = min capacity Cell.maxNat
  valid : h.memory.Valid
  below : ∀ r ∈ h.regions, r.1 + r.2 ≤ h.memory.here
  apart : h.regions.Pairwise fun r s => r.1 + r.2 ≤ s.1

theorem tracked_start (capacity : Nat) : Tracked capacity (start capacity) :=
  ⟨rfl, valid_empty capacity, List.forall_mem_nil _, .nil⟩

section

variable {capacity : Nat} {h : History} {c : Call} {m : Memory}

theorem memory_of_ok {r : Option Nat} (hrun : c.run h.memory = .ok r m) : (h.call c).memory = m :=
  stateAfter_ok hrun

theorem memory_of_error {e : MemoryFault} (hrun : c.run h.memory = .error e m) :
    (h.call c).memory = m := stateAfter_error hrun

theorem call_of_error {e : MemoryFault} (hrun : c.run h.memory = .error e m) : h.call c = ⟨m, h.regions⟩ := by
  rw [call, stateAfter_error hrun, handed, hrun, List.append_nil]

theorem call_of_none (hrun : c.run h.memory = .ok none m) : h.call c = ⟨m, h.regions⟩ := by
  rw [call, stateAfter_ok hrun, handed, hrun, List.append_nil]

theorem call_of_some {a : Nat} (hrun : c.run h.memory = .ok (some a) m) :
    h.call c = ⟨m, h.regions ++ [(a, c.content.length)]⟩ := by
  rw [call, stateAfter_ok hrun, handed, hrun]

theorem Tracked.call (ht : Tracked capacity h) (c : Call) : Tracked capacity (h.call c) := by
  have hlater {m : Memory} (hgrows : Grows h.memory m) : Tracked capacity ⟨m, h.regions⟩ :=
    ⟨hgrows.capacity.trans ht.size, hgrows.valid ht.valid, fun r hr =>
     Nat.le_trans (ht.below r hr) hgrows.here_le, ht.apart⟩
  cases c.outcome ht.valid with
  | allocated m hc hfits hrun htakes =>
    have hkept := hlater htakes.toGrows
    rcases c.answer_cases h.memory with hanswer | hanswer <;> rw [hanswer] at hrun
    · rw [call_of_none hrun]
      exact hkept
    · rw [call_of_some hrun]
      refine ⟨hkept.size, hkept.valid, fun r hr => ?_,
          List.pairwise_append.mpr ⟨ht.apart, List.pairwise_singleton .., ?_⟩⟩
      · rcases List.mem_append.mp hr with hr | hr
        · exact hkept.below r hr
        · obtain rfl := List.mem_singleton.mp hr
          exact Nat.le_of_eq htakes.here.symm
      · intro r hr s hs
        obtain rfl := List.mem_singleton.mp hs
        exact Nat.le_trans (ht.below r hr) (c.here_le_start ht.valid)
  | stored m a len hc hfits hrun hstores =>
    rw [call_of_none hrun]
    refine ⟨hstores.capacity.trans ht.size, ⟨?_, ?_⟩, fun r hr => ?_, ht.apart⟩
    · rw [hstores.here, hstores.capacity]
      exact ht.valid.here_le
    · rw [hstores.capacity]
      exact ht.valid.capacity_le
    · rw [hstores.here]
      exact ht.below r hr
  | failed e m hfits hrun hgrows hleft =>
    rw [call_of_error hrun]
    exact hlater hgrows

theorem Tracked.calls (ht : Tracked capacity h) (cs : List Call) : Tracked capacity (h.calls cs) := by
  induction cs generalizing h with
  | nil => exact ht
  | cons c cs ih => exact ih (ht.call c)

/-- What a call on a memory does that has handed out some regions. -/
structure Proper (h : History) (c : Call) : Prop where
  here_le : h.memory.here ≤ (h.call c).memory.here
  here_inside : (h.call c).memory.here ≤ h.memory.capacity
  succeeds_iff : (∃ r m, c.run h.memory = .ok r m) ↔ c.Fits h.memory
  /-- A region that is handed out reaches from the old free end or above it to the new one, above
      all that were handed out before, and holds what was asked for. -/
  region (a : Nat) (m : Memory) : c.run h.memory = .ok (some a) m →
    h.memory.here ≤ a ∧ m.here = a + c.content.length ∧ (∀ r ∈ h.regions, r.1 + r.2 ≤ a) ∧
      fetchBytes a c.content.length m = .ok c.content m
  cell (v : Cell) (a : Nat) (m : Memory) : bumpCell v h.memory = .ok a m → 4 ∣ a ∧ fetchCell a m = .ok v m
  below : c.allocates = true → ∀ b < h.memory.here, (h.call c).memory.byteAt b = h.memory.byteAt b
  /-- A call that fails leaves the memory as it was, but that one for a cell may have moved the free
      end to the next cell boundary. -/
  failure (e : MemoryFault) (m : Memory) : c.run h.memory = .error e m →
    (∀ b < h.memory.here, m.byteAt b = h.memory.byteAt b) ∧
      (m = h.memory ∨
        (∃ v, c = .bumpCell v) ∧ h.memory.here ≤ m.here ∧ m.here < h.memory.here + 4 ∧ 4 ∣ m.here)

/-- An allocation, successful or not, leaves everything below the free end. -/
theorem Tracked.grows (ht : Tracked capacity h) (hc : c.allocates = true) :
    Grows h.memory (h.call c).memory := by
  cases c.outcome ht.valid with
  | allocated m _ _ hrun htakes =>
    rw [memory_of_ok hrun]
    exact htakes.toGrows
  | stored m a len hstore _ _ _ =>
    rw [hc] at hstore
    cases hstore
  | failed e m _ hrun hgrows _ =>
    rw [memory_of_error hrun]
    exact hgrows

theorem Tracked.here_le (ht : Tracked capacity h) (c : Call) : h.memory.here ≤ (h.call c).memory.here := by
  cases c.outcome ht.valid with
  | allocated _ hc _ _ _ => exact (ht.grows hc).here_le
  | stored m a len _ _ hrun hstores =>
    rw [memory_of_ok hrun]
    exact Nat.le_of_eq hstores.here.symm
  | failed e m _ hrun hgrows _ =>
    rw [memory_of_error hrun]
    exact hgrows.here_le

theorem Tracked.succeeds_iff (ht : Tracked capacity h) (c : Call) :
    (∃ r m, c.run h.memory = .ok r m) ↔ c.Fits h.memory := by
  cases c.outcome ht.valid with
  | allocated m _ hfits hrun _ => exact iff_of_true ⟨_, m, hrun⟩ hfits
  | stored m a len _ hfits hrun _ => exact iff_of_true ⟨_, m, hrun⟩ hfits
  | failed e m hfits hrun _ _ =>
    refine iff_of_false ?_ hfits
    rintro ⟨r, m', hok⟩
    rw [hrun] at hok
    cases hok

/-- A call that gives an address has taken the bytes there. -/
theorem Tracked.takes (ht : Tracked capacity h) {a : Nat} (hrun : c.run h.memory = .ok (some a) m) :
    a = c.start h.memory ∧ Takes a c.content h.memory m := by
  cases c.outcome ht.valid with
  | allocated m' _ _ hrun' htakes =>
    rw [hrun] at hrun'
    injection hrun' with hanswer hm
    subst hm
    rcases c.answer_cases h.memory with hnone | hsome
    · rw [hnone] at hanswer
      cases hanswer
    · rw [hsome] at hanswer
      cases hanswer
      exact ⟨rfl, htakes⟩
  | stored m' b len _ _ hrun' _ =>
    rw [hrun] at hrun'
    cases hrun'
  | failed e m' _ hrun' _ _ =>
    rw [hrun] at hrun'
    cases hrun'

theorem Tracked.cell (ht : Tracked capacity h) {v : Cell} {a : Nat} (hrun : bumpCell v h.memory = .ok a m) :
    4 ∣ a ∧ fetchCell a m = .ok v m := by
  have hcall : (Call.bumpCell v).run h.memory = .ok (some a) m := bind_of_ok hrun
  obtain ⟨rfl, htakes⟩ := ht.takes hcall
  have hroom : aligned h.memory.here + 4 ≤ m.capacity := by
    rw [htakes.capacity]
    exact htakes.stop_le ht.valid
  refine ⟨dvd_aligned _, ?_⟩
  rw [Call.start, fetchCell_of_le hroom]
  exact congrArg (EStateM.Result.ok · m) htakes.holds.cellAt

theorem Tracked.failure (ht : Tracked capacity h) {e : MemoryFault} (hrun : c.run h.memory = .error e m) :
    Grows h.memory m ∧ (m = h.memory ∨ (∃ v, c = .bumpCell v) ∧ m.here = aligned h.memory.here) := by
  cases c.outcome ht.valid with
  | allocated m' _ _ hrun' _ =>
    rw [hrun] at hrun'
    cases hrun'
  | stored m' b len _ _ hrun' _ =>
    rw [hrun] at hrun'
    cases hrun'
  | failed e' m' _ hrun' hgrows hleft =>
    rw [hrun] at hrun'
    cases hrun'
    exact ⟨hgrows, hleft⟩

theorem Tracked.proper (ht : Tracked capacity h) (c : Call) : Proper h c where
  here_le := ht.here_le c
  here_inside := by
    rw [ht.size, ← (ht.call c).size]
    exact (ht.call c).valid.here_le
  succeeds_iff := ht.succeeds_iff c
  region a m hrun := by
    obtain ⟨rfl, htakes⟩ := ht.takes hrun
    have hle := c.here_le_start ht.valid
    exact ⟨hle, htakes.here, fun r hr => Nat.le_trans (ht.below r hr) hle, htakes.fetchBytes ht.valid⟩
  cell _ _ _ hrun := ht.cell hrun
  below hc := (ht.grows hc).below
  failure e m hrun := by
    obtain ⟨hgrows, hleft⟩ := ht.failure hrun
    refine ⟨hgrows.below, ?_⟩
    rcases hleft with hsame | ⟨hcell, hhere⟩
    · exact .inl hsame
    · right
      rw [hhere]
      exact ⟨hcell, le_aligned ht.valid.here_le_maxNat, aligned_lt ht.valid.here_le_maxNat, dvd_aligned _⟩

end

/-- Whatever was asked of a memory and stored in it before, its regions are apart and inside it, and
    the next call hands out a fresh one that is filled as asked, or fails and harms none. -/
theorem allocation_proper (capacity : Nat) (calls : List Call) :
    ((start capacity).calls calls).memory.capacity = min capacity 2147483647 ∧
    ((start capacity).calls calls).memory.here ≤ ((start capacity).calls calls).memory.capacity ∧
    ((start capacity).calls calls).regions.Pairwise (fun r s => r.1 + r.2 ≤ s.1) ∧
    ∀ c, Proper ((start capacity).calls calls) c := by
  have htracked := (tracked_start capacity).calls calls
  exact ⟨htracked.size, htracked.valid.here_le, htracked.apart, htracked.proper⟩

end History

end Memory

end Handheld
