/-
  Handheld.Machine.ByteStore — a byte for every address, zero until it is written.

  The bytes are kept in pages, and a page is kept up to the last of its bytes that was ever
  written. What is not kept is zero, so a store costs what is written to it, wherever that is.
  `get` is the whole meaning of a store: `get_set` and `get_zero` say what it gives after a
  write and after zeroing a range.
-/

namespace Handheld

structure ByteStore where
  pages : Array (Array UInt8)

namespace ByteStore

def pageSize : Nat := 1024

def empty : ByteStore := ⟨#[]⟩

def get (s : ByteStore) (a : Nat) : UInt8 := (s.pages.getD (a / pageSize) #[]).getD (a % pageSize) 0

/-- A page with one byte written, made long enough to hold it. -/
def setInPage (page : Array UInt8) (i : Nat) (v : UInt8) : Array UInt8 :=
  if i < page.size then page.setIfInBounds i v
  else (page ++ Array.replicate (i - page.size) 0).push v

/-- The pages up to page `p` at least. -/
def reach (pages : Array (Array UInt8)) (p : Nat) : Array (Array UInt8) :=
  if p < pages.size then pages else pages ++ Array.replicate (p + 1 - pages.size) #[]

def set (s : ByteStore) (a : Nat) (v : UInt8) : ByteStore :=
  ⟨(reach s.pages (a / pageSize)).modify (a / pageSize) (setInPage · (a % pageSize) v)⟩

/-- Zeroes the next bytes of a page. -/
def zeroInPage (page : Array UInt8) (i : Nat) : Nat → Array UInt8
  | 0 => page
  | n + 1 => zeroInPage (page.setIfInBounds i 0) (i + 1) n

/-- Zeroes what page `p` keeps of the addresses from `a` to `stop`. -/
def zeroPage (a stop p : Nat) (page : Array UInt8) : Array UInt8 :=
  let i := a - p * pageSize
  zeroInPage page i (min (stop - p * pageSize) page.size - i)

/-- Zeroes what the next pages keep of the addresses from `a` to `stop`. -/
def zeroPages (a stop : Nat) (pages : Array (Array UInt8)) (p : Nat) : Nat → Array (Array UInt8)
  | 0 => pages
  | n + 1 => zeroPages a stop (pages.modify p (zeroPage a stop p)) (p + 1) n

/-- Zeroes a range. Only the pages that are kept need to be looked at. -/
def zero (s : ByteStore) (a len : Nat) : ByteStore :=
  let first := a / pageSize
  ⟨zeroPages a (a + len) s.pages first (min s.pages.size ((a + len) / pageSize + 1) - first)⟩

theorem get_empty (a : Nat) : empty.get a = 0 := by simp [empty, get]

theorem getD_setInPage (page : Array UInt8) (i j : Nat) (v : UInt8) :
    (setInPage page i v).getD j 0 = if i = j then v else page.getD j 0 := by
  unfold setInPage
  split
  · simp only [Array.getD_eq_getD_getElem?, Array.getElem?_setIfInBounds]; grind
  · simp only [Array.getD_eq_getD_getElem?]; grind

theorem lt_size_reach (pages : Array (Array UInt8)) (p : Nat) : p < (reach pages p).size := by
  unfold reach
  split
  · assumption
  · simp only [Array.size_append, Array.size_replicate]; omega

theorem getD_reach (pages : Array (Array UInt8)) (p q : Nat) :
    (reach pages p).getD q #[] = pages.getD q #[] := by
  unfold reach
  split
  · rfl
  · simp only [Array.getD_eq_getD_getElem?]; grind

theorem getD_modify (pages : Array (Array UInt8)) (p q : Nat) (f : Array UInt8 → Array UInt8)
    (h : p < pages.size ∨ f #[] = #[]) :
    (pages.modify p f).getD q #[] = if p = q then f (pages.getD q #[]) else pages.getD q #[] := by
  simp only [Array.getD_eq_getD_getElem?, Array.getElem?_modify]
  by_cases hpq : p = q
  · subst hpq
    rcases Nat.lt_or_ge p pages.size with hp | hp
    · simp [hp]
    · rcases h with h | h
      · omega
      · simp [h, Array.getElem?_eq_none hp]
  · simp [hpq]

/-- A write is seen at its address and nowhere else. -/
@[simp] theorem get_set (s : ByteStore) (a b : Nat) (v : UInt8) :
    (s.set a v).get b = if a = b then v else s.get b := by
  unfold get set
  rw [getD_modify _ _ _ _ (.inl (lt_size_reach ..)), getD_reach]
  by_cases hp : a / pageSize = b / pageSize
  · rw [if_pos hp, getD_setInPage]
    have : a % pageSize = b % pageSize ↔ a = b := by unfold pageSize at *; omega
    simp only [this]
  · have hab : a ≠ b := fun h => hp (congrArg (· / pageSize) h)
    rw [if_neg hp, if_neg hab]

theorem getD_zeroInPage (page : Array UInt8) (i n j : Nat) :
    (zeroInPage page i n).getD j 0 = if i ≤ j ∧ j < i + n then 0 else page.getD j 0 := by
  induction n generalizing page i with
  | zero => rw [zeroInPage, if_neg (by omega)]
  | succ n ih =>
    rw [zeroInPage, ih]
    simp only [Array.getD_eq_getD_getElem?, Array.getElem?_setIfInBounds]
    grind

theorem zeroPage_empty (a stop p : Nat) : zeroPage a stop p #[] = #[] := by
  simp [zeroPage, zeroInPage]

theorem getD_zeroPages (a stop : Nat) (pages : Array (Array UInt8)) (p n q : Nat) :
    (zeroPages a stop pages p n).getD q #[] =
      if p ≤ q ∧ q < p + n then zeroPage a stop q (pages.getD q #[]) else pages.getD q #[] := by
  induction n generalizing pages p with
  | zero => rw [zeroPages, if_neg (by omega)]
  | succ n ih =>
    rw [zeroPages, ih, getD_modify _ _ _ _ (.inr (zeroPage_empty ..))]
    by_cases hpq : p = q
    · subst hpq
      rw [if_neg (by omega), if_pos rfl, if_pos (by omega)]
    · rw [if_neg hpq]
      by_cases h : p + 1 ≤ q ∧ q < p + 1 + n
      · rw [if_pos h, if_pos (by omega)]
      · rw [if_neg h, if_neg (by omega)]

/-- Zeroing a range is seen there and nowhere else. -/
@[simp] theorem get_zero (s : ByteStore) (a len b : Nat) :
    (s.zero a len).get b = if a ≤ b ∧ b < a + len then 0 else s.get b := by
  unfold get zero
  rw [getD_zeroPages]
  have past (page : Array UInt8) (i : Nat) (h : page.size ≤ i) : page.getD i 0 = 0 := by
    simp [Array.getD, Nat.not_lt.mpr h]
  have none (h : s.pages.size ≤ b / pageSize) : s.pages.getD (b / pageSize) #[] = #[] := by
    simp [Array.getD, Nat.not_lt.mpr h]
  generalize hpage : s.pages.getD (b / pageSize) #[] = page at none
  split
  · rw [zeroPage, getD_zeroInPage]
    have := past page (b % pageSize)
    unfold pageSize at *
    grind
  · split
    · have h : s.pages.size ≤ b / pageSize := by unfold pageSize at *; omega
      simp [none h]
    · rfl

end ByteStore

end Handheld
