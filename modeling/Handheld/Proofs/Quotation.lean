/-
  Handheld.Proofs.Quotation — a string prints as it is written, whichever way it goes.

  A string in a text is what stands between the one blank behind its opening word and the next
  quote (`phrases_quoted`). From there it goes one of four ways: it is printed, or put into
  memory and typed, and either at once or by code that carries its bytes. All four append it to
  the output, leave the stacks as they were and go on behind it (`strings_print_alike`).
-/

import Handheld.Proofs.Lockstep
import Handheld.Proofs.Passage
import Handheld.Proofs.Placement
import Handheld.Proofs.Reading
import Handheld.Proofs.Redefinition

namespace Handheld

variable {σ : Type}

/-! ## Strings in a text -/

/-- The word before a string. -/
def StringUse.opening : StringUse → String
  | .print => ".\""
  | .push => "s\""

/-- A string as it is written. -/
def StringUse.quoted (u : StringUse) (t : String) : String := u.opening ++ " " ++ t ++ "\""

namespace Source

/-- Of the blanks before a string only the first is not part of it. -/
theorem takeUntil_quoted (l : Location) {cs : List Char} (hcs : '"' ∉ cs) (more : List Char) :
    takeUntil ⟨l, ' ' :: (cs ++ '"' :: more)⟩ '"' =
      (some (String.ofList cs), ⟨((l.step ' ').advance cs).step '"', more⟩) := by
  have hspan :
      span ⟨l.step ' ', cs ++ '"' :: more⟩ (· != '"') = (cs, ⟨(l.step ' ').advance cs, '"' :: more⟩) :=
    span_of_first rfl hcs
  have hskip : skipBlank ⟨l, ' ' :: (cs ++ '"' :: more)⟩ = ⟨l.step ' ', cs ++ '"' :: more⟩ := rfl
  rw [takeUntil, hskip, hspan]
  rfl

theorem phrases_quoted (u : StringUse) (l : Location) {t : String} (ht : '"' ∉ t.toList) (more : List Char) :
    phrases ⟨l, (u.quoted t).toList ++ more⟩ =
      .text u ⟨u.opening, l⟩ (some t) :: phrases ⟨l.advance (u.quoted t).toList, more⟩ := by
  have hword : Name.isWord u.opening = true ∧ Reserved.ofText? u.opening = some (.text u) := by
    cases u <;> decide +kernel
  have hchars : (u.quoted t).toList = u.opening.toList ++ (' ' :: (t.toList ++ ['"'])) := by
    simp [StringUse.quoted, String.toList_append]
  have hnext := next_append l u.opening (' ' :: (t.toList ++ '"' :: more)) (List.forall_mem_nil _) hword.1
    (by rintro _ ⟨⟩; rfl)
  have hread := phrases_of_next hnext
  have htext :
      (u.quoted t).toList ++ more = [] ++ (u.opening.toList ++ (' ' :: (t.toList ++ '"' :: more))) := by
    simp [hchars]
  have hend (l : Location) :
      ((l.step ' ').advance t.toList).step '"' = l.advance (' ' :: (t.toList ++ ['"'])) := by
    rw [← List.cons_append, Location.advance_append]
    rfl
  rw [htext, hread, Phrase.read, hword.2]
  simp only [takeUntil_quoted _ ht, String.ofList_toList]
  rw [hend, ← Location.advance_append, ← Location.advance_append, List.nil_append, ← hchars]
  rfl

/-- A word behind a blank. -/
theorem phrases_word (l : Location) {word : String} (hword : Name.isWord word = true)
    (hr : Reserved.ofText? word = none)
    {more : List Char} (hmore : ∀ c ∈ more.head?, Text.isBlank c = true) :
    phrases ⟨l, (" " ++ word).toList ++ more⟩ =
      .word ⟨word, l.step ' '⟩ :: phrases ⟨l.advance (" " ++ word).toList, more⟩ := by
  have hnext :=
    next_append l word more (List.forall_mem_singleton.mpr (show Text.isBlank ' ' = true from rfl))
        hword hmore
  have hchars : (" " ++ word).toList = [' '] ++ word.toList := by simp [String.toList_append]
  rw [hchars, List.append_assoc, phrases_of_next hnext, Phrase.read, hr, Location.advance_append]
  rfl

end Source

/-! ## Printing and pointing -/

namespace Machine

variable {m : Machine σ} {t : String}

/-- The machine after it has printed a text. -/
def printing (m : Machine σ) (t : String) : Machine σ :=
  { m with output := { m.output with text := m.output.text ++ t } }

/-- There is room for the text in the output. -/
def RoomFor (m : Machine σ) (t : String) : Prop :=
  m.output.text.utf8ByteSize + t.utf8ByteSize ≤ m.output.capacity

instance (m : Machine σ) (t : String) : Decidable (m.RoomFor t) := inferInstanceAs (Decidable (_ ≤ _))

/-- There is room for two more cells on the data stack. -/
def RoomForTwo (m : Machine σ) : Prop := m.data.depth + 2 ≤ m.data.capacity

instance (m : Machine σ) : Decidable m.RoomForTwo := inferInstanceAs (Decidable (_ ≤ _))

/-- On top of `under` are the address and the length of these bytes. -/
def Denotes (m : Machine σ) (under : Stack) (bytes : List UInt8) : Prop :=
  ∃ addr len a, m.data = (under.pushed addr).pushed len ∧ addr.toNat? = some a ∧
      len.toNat? = some bytes.length ∧
    a + bytes.length ≤ m.memory.capacity ∧ m.memory.Holds a bytes

theorem write_of_room (h : m.RoomFor t) : write t m = .ok () (m.printing t) := by
  rw [write, onOutput_eq, Output.write, if_pos (by exact h)]
  rfl

/-- The machine with an address and a length on the stack. -/
def pointing (m : Machine σ) (a n : Nat) : Machine σ :=
  m.withData ((m.data.pushed (Int32.ofNat a)).pushed (Int32.ofNat n))

theorem push_two_of_room (h : m.RoomForTwo) (a n : Nat) :
    (push (Int32.ofNat a) >>= fun _ => push (Int32.ofNat n) : Act σ Unit) m = .ok () (m.pointing a n) := by
  have hdepth := m.data.depth_pushed (Int32.ofNat a)
  unfold RoomForTwo at h
  rw [bind_of_ok (push_of_room (by omega) _),
    push_of_room (by show (m.data.pushed (Int32.ofNat a)).depth < m.data.capacity; omega)]
  rfl

theorem denotes_pointing {a : Nat} {bytes : List UInt8} (hv : m.memory.Valid)
    (hin : a + bytes.length ≤ m.memory.capacity)
    (hh : m.memory.Holds a bytes) : (m.pointing a bytes.length).Denotes m.data bytes := by
  have hmax := hv.capacity_le
  exact ⟨_, _, a, rfl, Cell.toNat?_ofNat (by omega), Cell.toNat?_ofNat (by omega), hin, hh⟩

end Machine

/-- Typing prints the text whose bytes the two cells denote, and takes the cells. -/
theorem Primitive.type_of_denotes {m : Machine σ} {under : Stack} {t : String}
    (h : m.Denotes under (Text.utf8 t))
    (hroom : m.RoomFor t) : Primitive.type.run m = .ok () ((m.withData under).printing t) := by
  obtain ⟨addr, len, a, hdata, haddr, hlen, hin, hholds⟩ := h
  have haddress : (Machine.address addr : Act σ Nat) = pure a := by
    rw [Machine.address, Memory.addrOfCell, haddr]
  have hcount : (Machine.count len .negativeCount : Act σ Nat) = pure (Text.utf8 t).length := by
    rw [Machine.count, hlen]
  rw [run, bind_of_ok (Machine.pop_pushed hdata), bind_of_ok (Machine.pop_pushed rfl), haddress,
    pure_bind, hcount, pure_bind]
  exact (StringUse.print_act (m := m.withData under) hin hholds).trans (Machine.write_of_room hroom)

/-- The name is that of a built-in word. -/
def Dictionary.Provides (d : Dictionary σ) (name : String) (p : Primitive) : Prop :=
  ∃ xt e, d.sense? name = some (.word xt) ∧ d.get? xt = some e ∧ e.kind = .builtin p

/-! ## At once -/

namespace Engine

variable {s s' : Engine σ} {t : String}

def printing (s : Engine σ) (t : String) : Engine σ := { s with machine := s.machine.printing t }

/-- Interprets what is left of a text. -/
def readOn (fuel : Nat) (rest : Source) : Session σ Unit :=
  recovering do
    feedAll fuel rest.phrases
    finish

theorem interpret_eq_readOn (fuel : Nat) (label text : String) :
    (interpret fuel label text : Session σ Unit) = readOn fuel ⟨.start label, text.toList⟩ := rfl

/-- At the end of the text there is no more to do. -/
theorem readOn_nil (hm : s.mode = .run) (fuel : Nat) (l : Location) : readOn fuel ⟨l, []⟩ s = .ok () s := by
  have hfinish : finish s = .ok () s := by
    rw [finish, bind_of_ok (get_apply s), hm]
    rfl
  rw [readOn, Source.phrases_of_nil rfl, feedAll, pure_bind, recovering, hfinish]

theorem readOn_of_feed {fuel : Nat} {p : Phrase} {rest rest' : Source}
    (hp : rest.phrases = p :: rest'.phrases)
    (h : feed fuel p s = .ok () s') : readOn fuel rest s = readOn fuel rest' s' := by
  rw [readOn, readOn, hp, feedAll, bind_assoc, recovering, recovering, bind_of_ok h]

theorem feed_print (hm : s.mode = .run) (hroom : s.machine.RoomFor t) (fuel : Nat) (tok : Token) :
    feed fuel (.text .print tok (some t)) s = .ok () (s.printing t) := by
  rw [feed_of_run hm, interpretPhrase, interpretString, onMachine_eq, Machine.write_of_room hroom]
  rfl

/-- A string that is interpreted is put at the end of memory. -/
theorem feed_push (hm : s.mode = .run) (hv : s.machine.memory.Valid) (hdata : s.machine.RoomForTwo)
    (hmem : s.machine.memory.here + (Text.utf8 t).length ≤ s.machine.memory.capacity) (fuel : Nat)
    (tok : Token) :
    ∃ memory data, s.machine.memory.Appends (Text.utf8 t) memory ∧
      ((s.withMemory memory).withData data).machine.Denotes s.machine.data (Text.utf8 t) ∧
      feed fuel (.text .push tok (some t)) s = .ok () ((s.withMemory memory).withData data) := by
  have hmax := hv.capacity_le
  obtain ⟨memory, hbump⟩ := Memory.bumpBytes_of_le (Text.utf8 t) hmem
  have happends := (Memory.bumpBytes_appends hbump).2
  refine ⟨memory, _, happends, Machine.denotes_pointing (m := (s.withMemory memory).machine)
    (happends.valid hv) (by rw [memory_withMemory, happends.capacity]; exact hmem) happends.appended, ?_⟩
  rw [feed_of_run hm, interpretPhrase, interpretString, bind_of_ok (onMemory_of_ok hbump), onMachine_eq,
    Machine.cell_of_le (by omega), Machine.cell_of_le (by omega), pure_bind, pure_bind]
  have hpush := Machine.push_two_of_room (m := (s.withMemory memory).machine) hdata s.machine.memory.here
    (Text.utf8 t).length
  rw [hpush]
  rfl

/-- And typed from there. -/
theorem feed_type {under : Stack} (hm : s.mode = .run) (htype : s.dict.Provides "type" .type)
    (h : s.machine.Denotes under (Text.utf8 t)) (hroom : s.machine.RoomFor t) (fuel : Nat) (l : Location) :
    feed fuel (.word ⟨"type", l⟩) s = .ok () ((s.withData under).printing t) := by
  obtain ⟨xt, e, hsense, he, hk⟩ := htype
  have hperform : e.kind.perform s.machine = .ok () ((s.machine.withData under).printing t) := by
    rw [hk]
    exact Primitive.type_of_denotes h hroom
  rw [feed_of_run hm, interpretPhrase, bind_of_ok (get_apply s), hsense]
  show execute fuel xt s = _
  rw [execute_ordinary he (by rw [hk]; rfl), onMachine_eq, hperform]
  rfl

end Engine

/-! ## In compiled code -/

theorem Spot.here_snoc (z : Spot) (b : Body) (entry : Nat) : (z.snoc b).here entry = z.here entry + b.size :=
  (Nat.add_assoc ..).symm

namespace Engine

variable {s s₁ : Engine σ} {w : String} {body b : Body} {z : Spot} {qs : List Phrase} {i : Instr}

/-- The instruction of a piece of a definition stands where the code before it ends. -/
theorem Defined.stands_piece (hr : (z.snoc b).readAll s.dict qs = some ⟨.top, body⟩)
    (hi : b.instr? s.dict.size = some i) : Stands s.entry (s.coding body).bytes (z.here s.entry) i.bytes :=
  (s.coding body).stands (List.mem_append_left _ (Spot.mem_sites_readAll hr (z.mem_sites_snoc s.entry hi)))

/-- The token of a word in a definition is a cell. -/
theorem Defined.token_le {xt : Nat} (hd : s.Defined w body s₁)
    (hr : (z.snoc (.word xt)).readAll s.dict qs = some ⟨.top, body⟩) : xt ≤ Cell.maxNat := by
  have hall : ∀ site ∈ body.sites s.dict.size s.entry 0, ∀ n, site.instr = .word n → n ≤ Cell.maxNat := by
    refine Body.forall_sites (Q := fun i => ∀ n, i = .word n → n ≤ Cell.maxNat) (Nat.le_refl _)
      (hd.fits.imp fun _ piece hf i hi n hn => ?_) (fun _ h => by cases h) fun _ _ _ _ _ h => by cases h
    cases piece <;> cases hi <;> cases hn <;> exact hf
  exact hall _ (Spot.mem_sites_readAll hr (z.mem_sites_snoc s.entry rfl)) xt rfl

section

variable {later : Engine σ} {t : String} (hd : s.Defined w body s₁) (hl : s₁.Retains later s.entry)

include hd hl

theorem Defined.reaches_print (hr : (z.snoc (.string .print t)).readAll s.dict qs = some ⟨.top, body⟩)
    (hroom : later.machine.RoomFor t) (hrooted : s.dict.Rooted) (base : Nat) :
    later.dict.Reaches base 1 later.machine (z.here s.entry) (later.machine.printing t)
      ((z.snoc (.string .print t)).here s.entry) := by
  have hdvd : 4 ∣ z.here s.entry := z.dvd_here (Memory.dvd_aligned _)
  refine .of_step ?_
  rw [Spot.here_snoc,
    Dictionary.step_print (hd.retained hl) (hd.rooted hl hrooted) t hdvd (stands_piece hr rfl),
    Machine.write_of_room hroom]
  rfl

/-- The string stands eight bytes behind its instruction, and that is what is left on the stack. -/
theorem Defined.reaches_push (hr : (z.snoc (.string .push t)).readAll s.dict qs = some ⟨.top, body⟩)
    (hroom : later.machine.RoomForTwo) (hrooted : s.dict.Rooted) (base : Nat) :
    ∃ data, (later.machine.withData data).Denotes later.machine.data (Text.utf8 t) ∧
      later.dict.Reaches base 1 later.machine (z.here s.entry) (later.machine.withData data)
        ((z.snoc (.string .push t)).here s.entry) := by
  have hcode := hd.retained hl
  have hstands := stands_piece hr rfl
  have hdata : Stands s.entry _ (z.here s.entry + 4 + 4) (Text.utf8 t ++ _) := hstands.right.right
  obtain ⟨hholds, hin⟩ := hcode.part hdata.left
  have hhere := hl.valid.here_le
  have hmax := hl.valid.capacity_le
  have hdvd : 4 ∣ z.here s.entry := z.dvd_here (Memory.dvd_aligned _)
  refine ⟨_, Machine.denotes_pointing hl.valid (Nat.le_trans hin hhere) hholds, .of_step ?_⟩
  rw [Spot.here_snoc, Dictionary.step_string hcode (hd.rooted hl hrooted) .push t hdvd hstands, StringUse.act,
    Machine.cell_of_le (by omega), pure_bind, Machine.push_two_of_room hroom]
  rfl

theorem Defined.reaches_type {m : Machine σ} {under : Stack} {xt : Nat} {e : Entry σ}
    (hr : (z.snoc (.word xt)).readAll s.dict qs = some ⟨.top, body⟩) (he : s.dict.get? xt = some e)
    (hk : e.kind = .builtin .type) (hm : m.memory = later.machine.memory) (h : m.Denotes under (Text.utf8 t))
    (hroom : m.RoomFor t) (base : Nat) :
    later.dict.Reaches base 1 m (z.here s.entry) ((m.withData under).printing t)
      ((z.snoc (.word xt)).here s.entry) := by
  have hcode := hd.retained hl
  rw [← hm] at hcode
  have hperform : e.kind.perform m = .ok () ((m.withData under).printing t) := by
    rw [hk]
    exact Primitive.type_of_denotes h hroom
  have hlater : later.dict.get? xt = some e := hl.dict.get? (by
    rw [hd.dict]
    exact (s.dict.extends_push w _).get? he)
  exact Dictionary.reaches_of_word hcode (hd.token_le hr) hlater (by rw [hk]; rfl) (stands_piece hr rfl)
      hperform

end

end Engine

/-- Phrases of a definition that has been completed, and an engine that still has it. -/
structure Excerpt (σ : Type) (phrases : List Phrase) where
  /-- The engine before the definition; before the phrases; after them; after the definition; and
      any time later. -/
  start : Engine σ
  entered : Engine σ
  left : Engine σ
  completed : Engine σ
  later : Engine σ
  fuel : Nat
  colon : Token
  semicolon : Token
  name : String
  before : List Phrase
  after : List Phrase
  interpreting : start.mode = .run
  valid : start.machine.memory.Valid
  rooted : start.dict.Rooted
  inner : ∀ p ∈ before ++ (phrases ++ after), p.isSemicolon = false
  enters : Engine.feedAll fuel (.define .colon colon (some name) :: before) start = .ok () entered
  leaves : Engine.feedAll fuel phrases entered = .ok () left
  completes : Engine.feedAll fuel (after ++ [.control .semicolon semicolon]) left = .ok () completed
  retained : completed.Retains later start.entry

namespace Excerpt

open Engine

variable {ps : List Phrase} (x : Excerpt σ ps)

/-- Where the code of the phrases begins. -/
def addr : Nat := x.entered.machine.memory.here

/-- Where the code after them begins. -/
def stop : Nat := x.left.machine.memory.here

/-- The places of the phrases in the body that was compiled. -/
theorem places : ∃ (body : Body) (z z' : Spot), x.start.Defined x.name body x.completed ∧
    z.readAll x.start.dict ps = some z' ∧
    z'.readAll x.start.dict x.after = some ⟨.top, body⟩ ∧ x.addr = z.here x.start.entry ∧
    x.stop = z'.here x.start.entry := by
  have hleft : feedAll x.fuel (.define .colon x.colon (some x.name) :: (x.before ++ ps)) x.start =
      .ok () x.left := by
    rw [← List.cons_append, feedAll_append, bind_of_ok x.enters]
    exact x.leaves
  have hdef : feedAll x.fuel (.define .colon x.colon (some x.name) :: (x.before ++ (ps ++ x.after)) ++
      [.control .semicolon x.semicolon]) x.start = .ok () x.completed := by
    rw [← List.append_assoc, ← List.cons_append, List.append_assoc, feedAll_append, bind_of_ok hleft]
    exact x.completes
  obtain ⟨body, hreads⟩ :=
    exists_reads_of_defined x.interpreting x.valid (fun p hp => Phrase.ne_semicolon (x.inner p hp)) hdef
  have hread := reads_iff_readAll.mp hreads
  rw [Spot.readAll_append] at hread
  obtain ⟨z, hz, hread⟩ := Option.bind_eq_some_iff.mp hread
  rw [Spot.readAll_append] at hread
  obtain ⟨z', hz', hafter⟩ := Option.bind_eq_some_iff.mp hread
  obtain ⟨d, hu⟩ := underway_of_readAll x.valid x.interpreting hz x.enters
  have hboth : Spot.start.readAll x.start.dict (x.before ++ ps) = some z' := by
    rw [Spot.readAll_append, hz]
    exact hz'
  obtain ⟨d', hu'⟩ := underway_of_readAll x.valid x.interpreting hboth hleft
  exact ⟨body, z, z', defined_of_reads x.valid x.interpreting hreads hdef, hz', hafter,
      hu.drafting.here, hu'.drafting.here⟩

/-- Where nothing comes before them, their code is where a call of the word begins. -/
theorem entry?_of_first (h : x.before = []) : x.completed.dict.entry? x.name = some x.addr := by
  obtain ⟨body, _, _, hd, _⟩ := x.places
  have henters := x.enters
  rw [h] at henters
  have hread : Spot.start.readAll x.start.dict [] = some .start := rfl
  obtain ⟨d, hu⟩ := underway_of_readAll x.valid x.interpreting hread henters
  rw [hd.dict, Dictionary.entry?_push, addr, hu.drafting.here]
  rfl

end Excerpt

/-! ## All ways to print a string -/

open Engine

/-- What becomes of the text `t` between quotes, whatever comes after it. -/
structure PrintsAlike (σ : Type) (t : String) : Prop where
  /-- It is read as it is written, and read on behind the quote. -/
  read (u : StringUse) (l : Location) (more : List Char) :
    Source.phrases ⟨l, (u.quoted t).toList ++ more⟩ =
      .text u ⟨u.opening, l⟩ (some t) :: Source.phrases ⟨l.advance (u.quoted t).toList, more⟩
  /-- Interpreted, it is printed and the text is read on behind it. -/
  interpreted_print {s : Engine σ} (fuel : Nat) (l : Location) (more : List Char) :
    s.mode = .run → s.machine.RoomFor t →
    readOn fuel ⟨l, (StringUse.print.quoted t).toList ++ more⟩ s =
      readOn fuel ⟨l.advance (StringUse.print.quoted t).toList, more⟩ (s.printing t)
  /-- Or its bytes are put at the end of memory and pointed at. -/
  interpreted_push {s : Engine σ} (fuel : Nat) (l : Location) (more : List Char) :
    s.mode = .run → s.machine.memory.Valid → s.machine.RoomForTwo →
    s.machine.memory.here + (Text.utf8 t).length ≤ s.machine.memory.capacity →
    ∃ memory data, s.machine.memory.Appends (Text.utf8 t) memory ∧
      ((s.withMemory memory).withData data).machine.Denotes s.machine.data (Text.utf8 t) ∧
      readOn fuel ⟨l, (StringUse.push.quoted t).toList ++ more⟩ s =
        readOn fuel ⟨l.advance (StringUse.push.quoted t).toList, more⟩ ((s.withMemory memory).withData data)
  /-- And typed from there; a blank or the end of the text has to follow. -/
  interpreted_type {s : Engine σ} (fuel : Nat) (l : Location) (more : List Char) :
    s.mode = .run → s.machine.memory.Valid → s.machine.RoomForTwo →
    s.machine.memory.here + (Text.utf8 t).length ≤ s.machine.memory.capacity → s.machine.RoomFor t →
    s.dict.Provides "type" .type → (∀ c ∈ more.head?, Text.isBlank c = true) →
    ∃ memory, s.machine.memory.Appends (Text.utf8 t) memory ∧
      readOn fuel ⟨l, (StringUse.push.quoted t ++ " type").toList ++ more⟩ s =
        readOn fuel ⟨l.advance (StringUse.push.quoted t ++ " type").toList,
          more⟩ ((s.withMemory memory).printing t)
  /-- A call of a word begins at the code of its first phrases. -/
  first {ps : List Phrase} (x : Excerpt σ ps) : x.before = [] → x.completed.dict.entry? x.name = some x.addr
  /-- Compiled, first or at any other place, it is printed by the run that comes to its code, which
      goes on with the code behind it. -/
  compiled_print {tok : Token} (x : Excerpt σ [.text .print tok (some t)]) (base : Nat) :
      x.later.machine.RoomFor t →
    x.later.dict.Reaches base 1 x.later.machine x.addr (x.later.machine.printing t) x.stop
  compiled_push {tok : Token} (x : Excerpt σ [.text .push tok (some t)]) (base : Nat) :
      x.later.machine.RoomForTwo →
    ∃ data, (x.later.machine.withData data).Denotes x.later.machine.data (Text.utf8 t) ∧
      x.later.dict.Reaches base 1 x.later.machine x.addr (x.later.machine.withData data) x.stop
  compiled_type {tok : Token} {l : Location} (x : Excerpt σ [.text .push tok (some t),
      .word ⟨"type", l⟩]) (base : Nat) :
    x.later.machine.RoomForTwo → x.later.machine.RoomFor t → x.start.dict.Provides "type" .type →
    x.later.dict.Reaches base 2 x.later.machine x.addr (x.later.machine.printing t) x.stop

/-- A text without a quote, between quotes, is printed exactly as it is, at once or by a
    definition, as a string that is printed or as one that is put into memory and typed. Nothing
    else is changed, but that typing at once leaves the bytes in memory, and what follows the
    string is done next; and what a string leaves on the stack denotes its bytes. -/
theorem strings_print_alike {t : String} (ht : '"' ∉ t.toList) : PrintsAlike σ t where
  read u l more := Source.phrases_quoted u l ht more
  interpreted_print fuel l more hm hroom :=
    readOn_of_feed (Source.phrases_quoted .print l ht more) (feed_print hm hroom fuel _)
  interpreted_push fuel l more hm hv hdata hmem := by
    obtain ⟨memory, data, happends, hdenotes, hfeed⟩ :=
      feed_push hm hv hdata hmem fuel ⟨StringUse.push.opening, l⟩
    exact ⟨memory, data, happends, hdenotes, readOn_of_feed (Source.phrases_quoted .push l ht more) hfeed⟩
  interpreted_type {s} fuel l more hm hv hdata hmem hroom htype hmore := by
    obtain ⟨memory, data, happends, hdenotes, hfeed⟩ :=
      feed_push hm hv hdata hmem fuel ⟨StringUse.push.opening, l⟩
    have hword : Name.isWord "type" = true ∧ Reserved.ofText? "type" = none := by decide +kernel
    refine ⟨memory, happends, ?_⟩
    rw [String.toList_append, List.append_assoc, Location.advance_append]
    calc readOn fuel ⟨l, (StringUse.push.quoted t).toList ++ (" type".toList ++ more)⟩ _
      _ = readOn fuel ⟨l.advance (StringUse.push.quoted t).toList, " type".toList ++ more⟩ _ :=
        readOn_of_feed (Source.phrases_quoted .push l ht _) hfeed
      _ = readOn fuel ⟨(l.advance (StringUse.push.quoted t).toList).advance " type".toList, more⟩ _ :=
        readOn_of_feed (Source.phrases_word _ hword.1 hword.2 hmore)
          (feed_type (s := (s.withMemory memory).withData data) hm htype hdenotes hroom fuel _)
  first x := x.entry?_of_first
  compiled_print x base hroom := by
    obtain ⟨body, z, z', hd, hread, hafter, haddr, hstop⟩ := x.places
    cases hread
    rw [haddr, hstop]
    exact hd.reaches_print x.retained hafter hroom x.rooted base
  compiled_push x base hdata := by
    obtain ⟨body, z, z', hd, hread, hafter, haddr, hstop⟩ := x.places
    cases hread
    rw [haddr, hstop]
    exact hd.reaches_push x.retained hafter hdata x.rooted base
  compiled_type {_ l} x base hdata hroom htype := by
    obtain ⟨body, z, z', hd, hread, hafter, haddr, hstop⟩ := x.places
    obtain ⟨xt, e, hsense, he, hk⟩ := htype
    simp only [Spot.readAll, Spot.read, hsense, Option.bind_some, Option.some.injEq] at hread
    subst hread
    have hstring : (z.snoc (.string .push t)).readAll x.start.dict (.word ⟨"type", l⟩ :: x.after) =
        some ⟨.top, body⟩ := by
      rw [Spot.readAll, Spot.read, hsense]
      exact hafter
    obtain ⟨data, hdenotes, hpush⟩ := hd.reaches_push x.retained hstring hdata x.rooted base
    rw [haddr, hstop]
    exact hpush.trans (hd.reaches_type (m := x.later.machine.withData data) x.retained hafter he hk rfl
        hdenotes hroom base)

/-- A text that begins with a newline and a blank, and whose bytes do not fill whole cells. -/
def greeting : String := "\n né"

def greetPlace : Location := ⟨"greet", 1, 1⟩

def greetPrint : List Phrase := [.text .print ⟨".\"", greetPlace⟩ (some greeting)]

def greetType : List Phrase := [.text .push ⟨"s\"", greetPlace⟩ (some greeting), .word ⟨"type", greetPlace⟩]

def greetBefore : List Phrase := [.control .if_ ⟨"if", greetPlace⟩]

def greetAfter : List Phrase := [.control .then_ ⟨"then", greetPlace⟩]

/-- The definition of `greet` up to the phrases that print. -/
def greetEntered : Engine Unit :=
  stateAfter (feedAll 0 (.define .colon ⟨":", greetPlace⟩ (some "greet") :: greetBefore)) fresh

def greetLeft (ps : List Phrase) : Engine Unit := stateAfter (feedAll 0 ps) greetEntered

def greeted (ps : List Phrase) : Engine Unit :=
  stateAfter (feedAll 0 (greetAfter ++ [.control .semicolon ⟨";", greetPlace⟩])) (greetLeft ps)

/-- What there is to check of a definition with these phrases in it. -/
def Greets (ps : List Phrase) : Prop :=
  (succeeds (feedAll 0 (.define .colon ⟨":", greetPlace⟩ (some "greet") :: greetBefore)) fresh = true ∧
    succeeds (feedAll 0 ps) greetEntered = true ∧
    succeeds (feedAll 0 (greetAfter ++ [.control .semicolon ⟨";", greetPlace⟩])) (greetLeft ps) = true) ∧
  (∀ p ∈ greetBefore ++ (ps ++ greetAfter), p.isSemicolon = false) ∧
  ((greeted ps).machine.memory.here ≤ (greeted ps).machine.memory.capacity ∧
    (greeted ps).machine.memory.capacity ≤ Cell.maxNat)

instance (ps : List Phrase) : Decidable (Greets ps) := inferInstanceAs (Decidable (_ ∧ _))

def Greets.excerpt {ps : List Phrase} (h : Greets ps) : Excerpt Unit ps where
  start := fresh
  entered := greetEntered
  left := greetLeft ps
  completed := greeted ps
  later := greeted ps
  fuel := 0
  colon := ⟨":", greetPlace⟩
  semicolon := ⟨";", greetPlace⟩
  name := "greet"
  before := greetBefore
  after := greetAfter
  interpreting := rfl
  valid := Memory.valid_empty _
  rooted := (Dictionary.sound_initial (fun _ hw => Primitive.isControl_of_mem_words hw) 0).runtime
  inner := h.2.1
  enters := ok_of_succeeds h.1.1
  leaves := ok_of_succeeds h.1.2.1
  completes := ok_of_succeeds h.1.2.2
  retained := ⟨.refl _, ⟨h.2.2.1, h.2.2.2⟩, Nat.le_refl _, fun _ _ _ => rfl⟩

theorem Greets.start_excerpt {ps : List Phrase} (h : Greets ps) : h.excerpt.start = fresh := rfl

theorem Greets.later_excerpt {ps : List Phrase} (h : Greets ps) : h.excerpt.later = greeted ps := rfl

theorem greeted_facts : (Greets greetPrint ∧ Greets greetType) ∧
    ((greeted greetPrint).machine.RoomFor greeting ∧ (greeted greetType).machine.RoomFor greeting ∧
      (greeted greetType).machine.RoomForTwo) ∧
    (fresh.machine.RoomFor greeting ∧ fresh.machine.RoomForTwo ∧
      fresh.machine.memory.here + (Text.utf8 greeting).length ≤ fresh.machine.memory.capacity) ∧
    fresh.dict.sense? "type" = some (.word 74) := by
  decide +kernel

theorem strings_print_alike_greeting :
    '"' ∉ greeting.toList ∧
    (∃ memory, fresh.machine.memory.Appends (Text.utf8 greeting) memory ∧
      interpret 0 "greet" (StringUse.push.quoted greeting ++ " type") fresh =
        .ok () ((fresh.withMemory memory).printing greeting)) ∧
    (∃ x : Excerpt Unit greetPrint, x.before = greetBefore ∧
      x.later.dict.Reaches 0 1 x.later.machine x.addr (x.later.machine.printing greeting) x.stop) ∧
    ∃ x : Excerpt Unit greetType, x.before = greetBefore ∧
      x.later.dict.Reaches 0 2 x.later.machine x.addr (x.later.machine.printing greeting) x.stop := by
  obtain ⟨⟨hprint, htype⟩, ⟨hroom₁, hroom₂, hdata₂⟩, ⟨hroom, hdata, hmem⟩, hsense⟩ := greeted_facts
  have hquote : '"' ∉ greeting.toList := by decide +kernel
  have hprovides : fresh.dict.Provides "type" .type :=
    ⟨74, ⟨.ofString "type", .builtin .type, false⟩, hsense, rfl, rfl⟩
  have hall := strings_print_alike (σ := Unit) hquote
  obtain ⟨memory, happends, hread⟩ :=
    hall.interpreted_type 0 (.start "greet") [] rfl (Memory.valid_empty _) hdata hmem hroom
    hprovides (by rintro _ ⟨⟩)
  rw [List.append_nil, readOn_nil rfl, ← interpret_eq_readOn] at hread
  rw [← hprint.later_excerpt] at hroom₁
  rw [← htype.later_excerpt] at hroom₂ hdata₂
  rw [← htype.start_excerpt] at hprovides
  exact ⟨hquote, ⟨memory, happends, hread⟩,
      ⟨hprint.excerpt, rfl, hall.compiled_print hprint.excerpt 0 hroom₁⟩,
    htype.excerpt, rfl, hall.compiled_type htype.excerpt 0 hdata₂ hroom₂ hprovides⟩

end Handheld
