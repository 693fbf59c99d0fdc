/-
  Handheld.Proofs.Numerals — numbers in a text are read exactly.

  A numeral is an optional minus sign and decimal digits, as many as there are (`Text.Numeral`), and
  reading finds its value and nothing else (`numeral?_eq_some_iff`). A text whose words are all
  numerals reads as these words, whatever blanks stand between them (`Source.phrases_of_words`), and
  pushes their values in order, as far as there is room (`feedAll_numerals`). A word that is neither
  reserved nor known nor a numeral stops the reading at its own place (`interpret_undefined`).
-/

import Handheld.Proofs.Booting
import Mathlib.Data.List.SplitBy

namespace Handheld

variable {σ : Type}

/-! ## Numerals and their values -/

namespace Text

/-- The characters are a numeral of that value: decimal digits, behind a minus sign if it is
    negated. -/
inductive Numeral : List Char → Int → Prop where
  | plain {digits : List Char} : digits ≠ [] → (∀ c ∈ digits, c.isDigit = true) →
    Numeral digits (Nat.ofDigitChars 10 digits 0)
  | minus {digits : List Char} : digits ≠ [] → (∀ c ∈ digits, c.isDigit = true) →
    Numeral ('-' :: digits) (-(Nat.ofDigitChars 10 digits 0))

theorem isDigit_of_digitValue? {c : Char} {d : Nat} (h : digitValue? c = some d) : c.isDigit = true := by
  unfold digitValue? at h
  split at h
  · next hrange =>
    simp only [Char.isDigit, ge_iff_le, Bool.and_eq_true, decide_eq_true_eq]
    exact hrange
  · cases h

theorem readDigits?_eq_some_iff {cs : List Char} {acc n : Nat} :
    readDigits? acc cs = some n ↔ (∀ c ∈ cs, c.isDigit = true) ∧ Nat.ofDigitChars 10 cs acc = n := by
  constructor
  · intro h
    have hdigits : ∀ c ∈ cs, c.isDigit = true := by
      induction cs generalizing acc with
      | nil => exact List.forall_mem_nil _
      | cons c cs ih =>
        rw [readDigits?] at h
        cases hd : digitValue? c with
        | none => rw [hd] at h; cases h
        | some d =>
          rw [hd] at h
          exact List.forall_mem_cons.mpr ⟨isDigit_of_digitValue? hd, ih h⟩
    rw [readDigits?_of_isDigit hdigits] at h
    exact ⟨hdigits, Option.some.inj h⟩
  · rintro ⟨hdigits, rfl⟩
    exact readDigits?_of_isDigit hdigits acc

theorem readNat?_eq_some_iff {cs : List Char} {n : Nat} :
    readNat? cs = some n ↔ cs ≠ [] ∧ (∀ c ∈ cs, c.isDigit = true) ∧ Nat.ofDigitChars 10 cs 0 = n := by
  cases cs with
  | nil => simp [readNat?]
  | cons c cs => simp [readNat?, readDigits?_eq_some_iff]

theorem readInt?_eq_some_iff {cs : List Char} {v : Int} : readInt? cs = some v ↔ Numeral cs v := by
  constructor
  · intro h
    unfold readInt? at h
    split at h
    · next digits =>
      cases hn : readNat? digits with
      | none => rw [hn] at h; cases h
      | some n =>
        obtain ⟨hne, hdigits, rfl⟩ := readNat?_eq_some_iff.mp hn
        rw [hn] at h
        cases h
        exact .minus hne hdigits
    · cases hn : readNat? cs with
      | none => rw [hn] at h; cases h
      | some n =>
        obtain ⟨hne, hdigits, rfl⟩ := readNat?_eq_some_iff.mp hn
        rw [hn] at h
        cases h
        exact .plain hne hdigits
  · intro h
    cases h with
    | plain hne hdigits =>
      -- A digit is no minus sign, so the whole is read as digits.
      have hdash : ∀ ds, cs ≠ '-' :: ds := by
        rintro ds rfl
        have hd := hdigits '-' List.mem_cons_self
        revert hd
        decide
      rw [readInt?.eq_2 cs hdash, readNat?_eq_some_iff.mpr ⟨hne, hdigits, rfl⟩]
      rfl
    | minus hne hdigits =>
      rw [readInt?, readNat?_eq_some_iff.mpr ⟨hne, hdigits, rfl⟩]
      rfl

theorem numerals_iff {ws : List (List Char)} {vs : List Cell} :
    List.Forall₂ (fun w (v : Cell) => Numeral w v.toInt) ws vs ↔
    ws.map readInt? = vs.map fun v => some v.toInt := by
  rw [← List.forall₂_eq_eq_eq, List.forall₂_map_left_iff, List.forall₂_map_right_iff]
  simp only [readInt?_eq_some_iff]

/-! ## The words of a text -/

theorem words_append {xs ys : List Char} (h : ∀ x ∈ xs.getLast?, ∀ y ∈ ys.head?, isBlank x ≠ isBlank y) :
    words (xs ++ ys) = words xs ++ words ys := by
  have hsplit := List.splitBy_append (r := fun a b => isBlank a == isBlank b) (l := xs) (m := ys)
    fun x hx y hy => beq_eq_false_iff_ne.mpr (h x hx y hy)
  rw [words, hsplit, List.filter_append]
  rfl

theorem isChain_of_forall {xs : List Char} {b : Bool} (h : ∀ c ∈ xs, isBlank c = b) :
    xs.IsChain fun x y => (isBlank x == isBlank y) = true := by
  refine List.Pairwise.isChain (List.pairwise_iff_forall_sublist.mpr fun {x y} hxy => ?_)
  have hx := h x (hxy.subset (by simp))
  have hy := h y (hxy.subset (by simp))
  rw [hx, hy, beq_self_eq_true]

theorem words_of_blank {blanks : List Char} (h : ∀ c ∈ blanks, isBlank c = true) : words blanks = [] := by
  by_cases hnil : blanks = []
  · subst hnil
    rfl
  · have hany : blanks.any (!isBlank ·) = false := by
      rw [List.any_eq_false]
      intro c hc
      simp [h c hc]
    rw [words, List.splitBy_of_isChain hnil (isChain_of_forall h), List.filter_cons, hany]
    rfl

theorem words_of_word {word : String} (h : Name.isWord word = true) : words word.toList = [word.toList] := by
  obtain ⟨hne, hblank⟩ := Name.isWord_iff.mp h
  have hany : word.toList.any (!isBlank ·) = true := by
    obtain ⟨c, hc⟩ := List.exists_mem_of_ne_nil _ hne
    exact List.any_eq_true.mpr ⟨c, hc, by rw [hblank c hc]; rfl⟩
  rw [words, List.splitBy_of_isChain hne (isChain_of_forall hblank), List.filter_cons, hany]
  rfl

/-- The first word of a text, behind blanks and before a blank or the end. -/
theorem words_cons {blanks rest : List Char} {word : String} (hblanks : ∀ c ∈ blanks, isBlank c = true)
    (hword : Name.isWord word = true) (hrest : ∀ c ∈ rest.head?, isBlank c = true) :
    words (blanks ++ (word.toList ++ rest)) = word.toList :: words rest := by
  obtain ⟨hne, hblank⟩ := Name.isWord_iff.mp hword
  have hfirst : words (blanks ++ (word.toList ++ rest)) = words blanks ++ words (word.toList ++ rest) := by
    refine words_append fun x hx y hy => ?_
    rw [List.head?_append_of_ne_nil _ hne] at hy
    rw [hblanks x (List.mem_of_getLast? hx), hblank y (List.mem_of_head? hy)]
    decide
  have hnext : words (word.toList ++ rest) = words word.toList ++ words rest := by
    refine words_append fun x hx y hy => ?_
    rw [hblank x (List.mem_of_getLast? hx), hrest y hy]
    decide
  rw [hfirst, hnext, words_of_blank hblanks, words_of_word hword]
  rfl

end Text

/-- A text without reserved words reads as its words, one by one. -/
theorem Source.phrases_of_words (s : Source)
    (h : ∀ w ∈ Text.words s.rest, Reserved.ofText? (String.ofList w) = none) :
    ∃ ts : List Token, s.phrases = ts.map .word ∧ ts.map (·.text.toList) = Text.words s.rest := by
  induction s using Source.phrases.induct with
  | case1 s r hnone =>
    have hnone : s.next.1 = none := by rw [hnone]
    exact ⟨[], phrases_of_none hnone, (Text.words_of_blank (rest_of_next_none hnone)).symm⟩
  | case2 s t r hsome ih =>
    obtain ⟨blanks, hblanks, hrest, -, -, hword, hhead⟩ := next_found hsome
    have hwords : Text.words s.rest = t.text.toList :: Text.words r.rest := by
      rw [hrest]
      exact Text.words_cons hblanks hword hhead
    rw [hwords] at h ⊢
    obtain ⟨hplain, hlater⟩ := List.forall_mem_cons.mp h
    rw [String.ofList_toList] at hplain
    have hread : Phrase.read t r = (.word t, r) := by rw [Phrase.read, hplain]
    rw [hread] at ih
    obtain ⟨ts, hts, htexts⟩ := ih hlater
    refine ⟨t :: ts, ?_, ?_⟩
    · rw [phrases_of_next hsome, hread, hts]
      rfl
    · rw [List.map_cons, htexts]

/-! ## What a numeral means -/

theorem numeral?_eq_some_iff {word : String} {v : Cell} : numeral? word = some v ↔
    Text.Numeral word.toList v.toInt := by
  rw [numeral?, Option.bind_eq_some_iff]
  constructor
  · rintro ⟨x, hx, hv⟩
    rw [Cell.ofInt?_eq_some_iff.mp hv]
    exact Text.readInt?_eq_some_iff.mp hx
  · intro h
    exact ⟨v.toInt, Text.readInt?_eq_some_iff.mpr h, Cell.ofInt?_eq_some_iff.mpr rfl⟩

namespace Dictionary

variable {d : Dictionary σ} {word : String}

theorem mem_visible {xt : Nat} {e : Entry σ} (he : d.get? xt = some e) (hv : e.hidden = false) :
    e ∈ d.visible := by
  rw [visible, List.mem_filter, List.mem_reverse]
  exact ⟨Array.mem_toList_iff.mpr (Array.mem_of_getElem? he), by rw [hv]; rfl⟩

/-- A name that no visible entry has is not found. -/
theorem find?_eq_none (h : ∀ e ∈ d.visible, e.name.text ≠ word) : d.find? word = none := by
  cases hf : d.find? word with
  | none => rfl
  | some xt =>
    obtain ⟨e, he, hv, hname⟩ := findBelow_eq_some hf
    exact absurd hname (h e (mem_visible he hv))

theorem sense?_eq_none (h : ∀ e ∈ d.visible, e.name.text ≠ word)
    (hword : ∀ v : Cell, ¬ Text.Numeral word.toList v.toInt) : d.sense? word = none := by
  have hnumeral : numeral? word = none := by
    rw [Option.eq_none_iff_forall_ne_some]
    exact fun v hv => hword v (numeral?_eq_some_iff.mp hv)
  rw [sense?, find?_eq_none h, hnumeral]
  rfl

/-- Where no visible word is called like a number, a numeral means its value. -/
theorem sense?_of_numeral (h : ∀ e ∈ d.visible, ∀ v : Cell, ¬ Text.Numeral e.name.text.toList v.toInt)
    {v : Cell} (hword : Text.Numeral word.toList v.toInt) : d.sense? word = some (.literal v) := by
  have hfind : d.find? word = none := by
    refine find?_eq_none fun e he heq => h e he v ?_
    rw [heq]
    exact hword
  rw [sense?, hfind, numeral?_eq_some_iff.mpr hword]
  rfl

end Dictionary

/-! ## Reading them -/

/-- The stack with more cells on it. -/
def Stack.pushAll (s : Stack) (vs : List Cell) : Stack := { s with cells := s.cells ++ vs.toArray }

namespace Stack

variable (s : Stack) (us vs : List Cell)

@[simp] theorem capacity_pushAll : (s.pushAll vs).capacity = s.capacity := rfl

@[simp] theorem depth_pushAll : (s.pushAll vs).depth = s.depth + vs.length := by
  rw [depth, pushAll, Array.size_append, List.size_toArray]
  rfl

@[simp] theorem pushAll_nil : s.pushAll [] = s := by rw [pushAll, Array.append_empty]

@[simp] theorem pushAll_pushAll : (s.pushAll us).pushAll vs = s.pushAll (us ++ vs) := by
  simp only [pushAll, Array.append_assoc, List.append_toArray]

end Stack

namespace Engine

/-- The engine with more cells on its data stack, and nothing else changed. -/
def pushAll (s : Engine σ) (vs : List Cell) : Engine σ :=
  { s with machine := { s.machine with data := s.machine.data.pushAll vs } }

variable {s s₁ : Engine σ}

theorem pushAll_nil (s : Engine σ) : s.pushAll [] = s := by rw [pushAll, Stack.pushAll_nil]

theorem pushAll_pushAll (s : Engine σ) (us vs : List Cell) :
    (s.pushAll us).pushAll vs = s.pushAll (us ++ vs) := by
  rw [pushAll, pushAll, pushAll, Stack.pushAll_pushAll]

theorem feed_literal {t : Token} {v : Cell} (fuel : Nat) (hmode : s.mode = .run)
    (hsense : s.dict.sense? t.text = some (.literal v)) :
    feed fuel (.word t) s = onMachine (Machine.push v) s := by
  rw [feed_of_run hmode, interpretPhrase, bind_of_ok (get_apply s), hsense]

theorem push_of_room {v : Cell} (h : s.machine.data.depth < s.machine.data.capacity) :
    onMachine (Machine.push v) s = .ok () (s.pushAll [v]) := by
  rw [onMachine_eq, Machine.push, Machine.onData_eq, Stack.push_of_lt h, Array.push_eq_append]
  rfl

theorem push_of_full {v : Cell} (h : s.machine.data.capacity ≤ s.machine.data.depth) :
    onMachine (Machine.push v) s = .error (.fault (.stack (.overflow s.machine.data.kind))) s := by
  rw [onMachine_eq, Machine.push, Machine.onData_eq, Stack.push_of_le h]

section Numerals

variable {d : Dictionary σ} {ts : List Token} {vs : List Cell}

/-- Numerals push their values in order as long as there is room. -/
theorem feedAll_of_room (fuel : Nat)
    (hsense : List.Forall₂ (fun t v => d.sense? t.text = some (.literal v)) ts vs)
    (hdict : s.dict = d) (hmode : s.mode = .run)
    (hroom : vs.length ≤ s.machine.data.capacity - s.machine.data.depth) :
    feedAll fuel (ts.map .word) s = .ok () (s.pushAll vs) := by
  induction hsense generalizing s with
  | nil =>
    rw [pushAll_nil]
    rfl
  | @cons t v ts vs hv hvs ih =>
    rw [List.length_cons] at hroom
    have hlt : s.machine.data.depth < s.machine.data.capacity := by omega
    have hnext : vs.length ≤ (s.pushAll [v]).machine.data.capacity - (s.pushAll [v]).machine.data.depth := by
      simp only [pushAll, Stack.capacity_pushAll, Stack.depth_pushAll, List.length_singleton]
      omega
    rw [List.map_cons, feedAll, bind_of_ok ((feed_literal fuel hmode (hdict ▸ hv)).trans (push_of_room hlt)),
      ih (s := s.pushAll [v]) hdict hmode hnext, pushAll_pushAll]
    rfl

/-- The first numeral for which there is no room stops the reading; those before it are pushed. -/
theorem feedAll_of_full (fuel : Nat)
    (hsense : List.Forall₂ (fun t v => d.sense? t.text = some (.literal v)) ts vs)
    (hdict : s.dict = d) (hmode : s.mode = .run)
    (hfull : s.machine.data.capacity - s.machine.data.depth < vs.length) :
    ∃ us, feedAll fuel (ts.map .word) s =
      .error (.fault (.stack (.overflow s.machine.data.kind))) (s.pushAll us) := by
  induction hsense generalizing s with
  | nil => exact absurd hfull (Nat.not_lt_zero _)
  | @cons t v ts vs hv hvs ih =>
    have hfeed := feed_literal fuel hmode (hdict ▸ hv)
    by_cases hlt : s.machine.data.depth < s.machine.data.capacity
    · rw [List.length_cons] at hfull
      have hnext :
          (s.pushAll [v]).machine.data.capacity - (s.pushAll [v]).machine.data.depth < vs.length := by
        simp only [pushAll, Stack.capacity_pushAll, Stack.depth_pushAll, List.length_singleton]
        omega
      obtain ⟨us, hus⟩ := ih (s := s.pushAll [v]) hdict hmode hnext
      refine ⟨v :: us, ?_⟩
      rw [List.map_cons, feedAll, bind_of_ok (hfeed.trans (push_of_room hlt)), hus, pushAll_pushAll]
      rfl
    · refine ⟨[], ?_⟩
      rw [List.map_cons, feedAll, bind_of_error (hfeed.trans (push_of_full (Nat.le_of_not_lt hlt))),
        pushAll_nil]

end Numerals

/-- A word without a meaning stops the reading, in a definition and outside one. -/
theorem feed_undefined {t : Token} (fuel : Nat) (hsense : s.dict.sense? t.text = none) :
    feed fuel (.word t) s = .error (.fault (.undefinedWord t.text t.location)) s := by
  cases hmode : s.mode with
  | run =>
    rw [feed_of_run hmode, interpretPhrase, bind_of_ok (get_apply s), hsense]
    rfl
  | compile d =>
    rw [feed_of_compile hmode, compilePhrase, bind_of_ok (get_apply s), hsense]
    rfl

theorem interpret_of_feedAll_error {fuel : Nat} {label text : String} {e : Halt}
    (h : feedAll fuel (Source.ofText label text).phrases s = .error e s₁) :
    interpret fuel label text s = .error e s₁.recover := by
  rw [interpret, recovering_eq, bind_of_error h]

/-- A word that no visible entry is called and that is no numeral in range stops the text at its
    place, whatever was read before it. -/
theorem interpret_undefined {fuel : Nat} {label text : String} {ps qs : List Phrase} {t : Token}
    (hphrases : (Source.ofText label text).phrases = ps ++ .word t :: qs)
    (hbefore : feedAll fuel ps s = .ok () s₁) (hname : ∀ e ∈ s₁.dict.visible, e.name.text ≠ t.text)
    (hword : ∀ v : Cell, ¬ Text.Numeral t.text.toList v.toInt) :
    interpret fuel label text s = .error (.fault (.undefinedWord t.text t.location)) s₁.recover := by
  apply interpret_of_feedAll_error
  rw [hphrases, feedAll_append, bind_of_ok hbefore, feedAll,
    bind_of_error (feed_undefined fuel (Dictionary.sense?_eq_none hname hword))]

/-- The words of a text of numerals, with what they mean where no visible word is called like one. -/
theorem senses_of_numerals {d : Dictionary σ} (label : String) {text : String} {vs : List Cell}
    (hnames : ∀ e ∈ d.visible, ∀ v : Cell, ¬ Text.Numeral e.name.text.toList v.toInt)
    (hwords : List.Forall₂ (fun w (v : Cell) => Text.Numeral w v.toInt) (Text.words text.toList) vs) :
    ∃ ts : List Token, (Source.ofText label text).phrases = ts.map .word ∧
      List.Forall₂ (fun t v => d.sense? t.text = some (.literal v)) ts vs := by
  have hplain : ∀ w ∈ Text.words text.toList, Reserved.ofText? (String.ofList w) = none := by
    refine ((List.forall₂_and_left _ _).mp (hwords.imp fun w v hv => ⟨?_, hv⟩)).1
    refine Reserved.ofText?_of_readInt? (v := v.toInt) ?_
    rw [String.toList_ofList]
    exact Text.readInt?_eq_some_iff.mpr hv
  obtain ⟨ts, hts, htexts⟩ := Source.phrases_of_words (Source.ofText label text) hplain
  refine ⟨ts, hts, ?_⟩
  rw [show Text.words (Source.ofText label text).rest = Text.words text.toList from rfl] at htexts
  rw [← htexts, List.forall₂_map_left_iff] at hwords
  exact hwords.imp fun t v hv => Dictionary.sense?_of_numeral hnames hv

/-- Numbers are read exactly. Where no visible word is called like a number, a text of numerals
    pushes their values in order and changes nothing else; if they do not fit it overflows the data
    stack, and only both stacks are emptied. A word that is neither reserved nor visible nor a numeral in
    range is undefined at its own line and column. -/
theorem numerals_read_exactly (fuel : Nat) (label text : String) (s : Engine σ) (hmode : s.mode = .run)
    (hkind : s.machine.data.kind = .data) :
    ((∀ e ∈ s.dict.visible, ∀ v : Cell, ¬ Text.Numeral e.name.text.toList v.toInt) →
      ∀ vs :
      List Cell, List.Forall₂ (fun w (v : Cell) => Text.Numeral w v.toInt) (Text.words text.toList) vs →
        interpret fuel label text s =
          if vs.length ≤ s.machine.data.capacity - s.machine.data.depth then
            .ok () { s with machine := { s.machine with data := s.machine.data.pushAll vs } }
          else .error (.fault (.stack (.overflow .data))) { s with machine := s.machine.reset }) ∧
    ∀ ps t qs s₁, (Source.ofText label text).phrases = ps ++ .word t :: qs → feedAll fuel ps s = .ok () s₁ →
      (∀ e ∈ s₁.dict.visible, e.name.text ≠ t.text) → (∀ v : Cell, ¬ Text.Numeral t.text.toList v.toInt) →
        interpret fuel label text s = .error (.fault (.undefinedWord t.text t.location)) s₁.recover ∧
        ∃ before after, text.toList = before ++ (t.text.toList ++ after) ∧ t.location = .behind label before ∧
          Source.phrases ⟨t.location.advance t.text.toList, after⟩ = qs := by
  refine ⟨fun hnames vs hwords => ?_, fun ps t qs s₁ hphrases hbefore hname hword => ?_⟩
  · obtain ⟨ts, hphrases, hsense⟩ := senses_of_numerals label hnames hwords
    split
    · next hroom =>
      rw [interpret, recovering_eq, hphrases, bind_of_ok (feedAll_of_room fuel hsense rfl hmode hroom),
        finish_of_run (s := s.pushAll vs) hmode]
      rfl
    · next hfull =>
      obtain ⟨us, hus⟩ := feedAll_of_full fuel hsense rfl hmode (Nat.lt_of_not_le hfull)
      rw [hkind, ← hphrases] at hus
      rw [interpret_of_feedAll_error hus, recover_of_run (s := s.pushAll us) hmode]
      rfl
  · obtain ⟨before, after, htext, hplace, hlater⟩ := Source.phrases_split hphrases
    refine ⟨interpret_undefined hphrases hbefore hname hword, before, after, htext, ?_, hlater⟩
    rw [hplace]
    exact Location.advance_start label before

/-- Both ends of the range, leading zeros and a negative zero, with blanks of several kinds between
    them. -/
def extremes : String := " -2147483648\n0007\t2147483647 -0"

/-- A definition broken off by a number with a plus sign. -/
def signedText : String := "007\n: late -8 +5 ;"

/-- What is read of it before the plus sign. -/
def unsignedPart : List Phrase :=
  [.word ⟨"007", ⟨"signed", 1, 1⟩⟩, .define .colon ⟨":", ⟨"signed", 2, 1⟩⟩ (some "late"),
   .word ⟨"-8", ⟨"signed", 2, 8⟩⟩]

theorem numerals_read_exactly_extremes :
    fresh.mode = .run ∧ fresh.machine.data.kind = .data ∧
    interpret 0 "extremes" extremes fresh = .ok () (fresh.pushAll [-2147483648, 7, 2147483647, 0]) ∧
    interpret 0 "extremes" extremes (new { dataCells := 3 } () Primitive.words) =
      .error (.fault (.stack (.overflow .data))) (new { dataCells := 3 } () Primitive.words) ∧
    ∃ s₁, feedAll 0 unsignedPart fresh = .ok () s₁ ∧
      interpret 0 "signed" signedText fresh =
        .error (.fault (.undefinedWord "+5" ⟨"signed", 2, 11⟩)) s₁.recover := by
  have hvisible (limits : Limits) : ∀ e ∈ (new limits () Primitive.words).dict.visible, ∀ v : Cell,
      ¬ Text.Numeral e.name.text.toList v.toInt := by
    have hall : fresh.dict.visible.all (fun e => (Text.readInt? e.name.text.toList).isNone) = true := by
      decide +kernel
    intro e he v hv
    have hnone := List.all_eq_true.mp hall e he
    rw [Text.readInt?_eq_some_iff.mpr hv] at hnone
    cases hnone
  have hwords : List.Forall₂ (fun w (v : Cell) => Text.Numeral w v.toInt) (Text.words extremes.toList)
      [-2147483648, 7, 2147483647, 0] := Text.numerals_iff.mpr (by decide +kernel)
  have hpart : succeeds (feedAll 0 unsignedPart) fresh = true ∧
      (stateAfter (feedAll 0 unsignedPart) fresh).dict.visible.all (fun e => e.name.text != "+5") =
        true := by decide +kernel
  have hphrases : (Source.ofText "signed" signedText).phrases =
      unsignedPart ++ .word ⟨"+5",
        ⟨"signed", 2, 11⟩⟩ :: [.control .semicolon ⟨";", ⟨"signed", 2, 14⟩⟩] := by decide +kernel
  have hbefore := ok_of_succeeds hpart.1
  refine ⟨rfl, rfl, ?_, ?_, _, hbefore, ?_⟩
  · rw [(numerals_read_exactly 0 "extremes" extremes fresh rfl rfl).1 (hvisible {}) _ hwords,
      if_pos (by decide)]
    rfl
  · rw [(numerals_read_exactly 0 "extremes" extremes _ rfl rfl).1 (hvisible _) _ hwords, if_neg (by decide)]
    rfl
  · refine ((numerals_read_exactly 0 "signed" signedText fresh rfl rfl).2 _ _ _ _ hphrases hbefore ?_ ?_).1
    · intro e he
      simpa using List.all_eq_true.mp hpart.2 e he
    · intro v hv
      have hread := Text.readInt?_eq_some_iff.mpr hv
      revert hread
      rw [show Text.readInt? "+5".toList = none by decide +kernel]
      exact nofun

end Engine

end Handheld
