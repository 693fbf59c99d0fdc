/-
  Handheld.Proofs.Pieces — a text read at once and a text read in pieces.

  Reading a text in two pieces, cut after a line, gives what reading it at once gives, but for
  the places in its faults: those of the second piece count their lines from the cut. An engine
  meets places in two ways. The words of a text stand at places, and an open definition keeps
  those of the structures it has open. Moving them all moves the place in a fault and changes
  nothing else (`feed_relocate`, `feedAll_relocate`).

  A word that is run knows no places, so its fault is the same wherever it was named. Only a
  word of the host could put a place of its own making into a fault
  (`Dictionary.hostRaises_runFor`).
-/

import Handheld.Proofs.Budget
import Handheld.Proofs.Reading

namespace Handheld

variable {σ α β : Type}

/-! ## Lines -/

namespace Location

/-- So many lines further down. -/
def below (n : Nat) (l : Location) : Location := { l with line := l.line + n }

theorem step_below (n : Nat) (l : Location) (c : Char) : (l.below n).step c = (l.step c).below n := by
  unfold step
  split
  · simp only [below, Nat.add_right_comm]
  · rfl

theorem advance_below (l : Location) (cs : List Char) :
    ∃ column, l.advance cs = { l.below (cs.count '\n') with column := column } := by
  induction cs generalizing l with
  | nil => exact ⟨l.column, rfl⟩
  | cons c cs ih =>
    obtain ⟨column, h⟩ := ih (l.step c)
    refine ⟨column, ?_⟩
    rw [advance, List.foldl_cons, ← advance, h, List.count_cons]
    by_cases hc : c = '\n'
    · simp [step, below, hc, Nat.add_assoc, Nat.add_comm 1]
    · simp [step, below, hc]

/-- After a whole number of lines comes the same column, as many lines further down. -/
theorem advance_lines (label : String) {cs : List Char} (h : cs.getLast? = some '\n') :
    (start label).advance cs = (start label).below (cs.count '\n') := by
  obtain ⟨front, rfl⟩ : ∃ front, cs = front ++ ['\n'] := List.getLast?_eq_some_iff.mp h
  obtain ⟨column, hfront⟩ := advance_below (start label) front
  rw [advance_append, hfront, List.count_append]
  rfl

end Location

/-- A text that stands further down has its words further down. -/
theorem Source.phrases_below (n : Nat) (l : Location) (cs : List Char) :
    phrases ⟨l.below n, cs⟩ = (phrases ⟨l, cs⟩).map (Phrase.relocate (Location.below n)) := by
  have hid : Phrase.relocate id = id := by
    funext p
    cases p <;> rfl
  have hstep (l l' : Location) (c : Char) (h : l' = l.below n) : l'.step c = (l.step c).below n := by
    rw [h, Location.step_below]
  have hplace (l l' : Location) (h : l' = l.below n) : Location.below n l = id l' := h.symm
  have hbeside : Beside (fun l l' => l' = l.below n) ⟨l, cs⟩ ⟨l.below n, cs⟩ := ⟨rfl, rfl⟩
  rw [phrases_beside hstep hplace hbeside, hid, List.map_id]

/-! ## Places in faults -/

namespace Fault

/-- The fault with the place it names, if it names one, moved. -/
def relocate (g : Location → Location) : Fault → Fault
  | .undefinedWord name l => .undefinedWord name (g l)
  | .missingName word l => .missingName word (g l)
  | .compileOnly name l => .compileOnly name (g l)
  | .nestedDefinition name l => .nestedDefinition name (g l)
  | .unmatchedControl name l => .unmatchedControl name (g l)
  | .unterminatedControl name l => .unterminatedControl name (g l)
  | .missingQuote l => .missingQuote (g l)
  | f => f

/-- Whether the fault names a place in a text. -/
def isPlaced : Fault → Bool
  | .undefinedWord _ _ | .missingName _ _ | .compileOnly _ _ | .nestedDefinition _ _ | .unmatchedControl _ _
  | .unterminatedControl _ _ | .missingQuote _ => true
  | _ => false

theorem relocate_of_not_isPlaced {f : Fault} (h : f.isPlaced = false) (g : Location → Location) :
    f.relocate g = f := by
  cases f with
  | undefinedWord | missingName | compileOnly | nestedDefinition | unmatchedControl |
      unterminatedControl | missingQuote =>
    cases h
  | stack | memory | output | missingEntryPoint | missingSemicolon | invalidName | badToken |
      missingOperand | negativeCount
  | divideByZero | budgetExceeded => rfl

end Fault

def Halt.relocate (g : Location → Location) : Halt → Halt
  | .fault f => .fault (f.relocate g)
  | .unfinished => .unfinished

/-- The same outcome with another fault. -/
def mapError {ε S : Type} (f : ε → ε) : EStateM.Result ε S α → EStateM.Result ε S α
  | .ok a s => .ok a s
  | .error e s => .error (f e) s

/-! ## Places in an engine -/

def Open.relocate (g : Location → Location) (o : Open) : Open := { o with location := g o.location }

def Draft.relocate (g : Location → Location) (d : Draft) : Draft :=
  { d with opened := d.opened.map (Open.relocate g) }

theorem Draft.unclosed_relocate (g : Location → Location) (d : Draft) :
    (d.relocate g).unclosed = d.unclosed.relocate g := by
  obtain ⟨name, xt, mark, opened⟩ := d
  cases opened <;> rfl

def Mode.relocate (g : Location → Location) : Mode → Mode
  | .run => .run
  | .compile d => .compile (d.relocate g)

namespace Engine

def relocate (g : Location → Location) (s : Engine σ) : Engine σ := { s with mode := s.mode.relocate g }

theorem relocate_of_run {s : Engine σ} (g : Location → Location) (h : s.mode = .run) : s.relocate g = s := by
  obtain ⟨dict, machine, mode, budget⟩ := s
  subst h
  rfl

theorem recover_relocate (g : Location → Location) (s : Engine σ) : (s.relocate g).recover = s.recover := by
  obtain ⟨dict, machine, mode, budget⟩ := s
  cases mode <;> rfl

/-- The outcome with the places in it moved; the fault keeps its own if `own` says so. -/
def relocated (own : Bool) (g : Location → Location) :
    EStateM.Result Halt (Engine σ) α → EStateM.Result Halt (Engine σ) α
  | .ok a s => .ok a (s.relocate g)
  | .error e s => .error (bif own then e else e.relocate g) (s.relocate g)

/-- `x'` does with the places moved what `x` does. -/
def Mirrors (g : Location → Location) (x x' : Session σ α) : Prop :=
  ∀ s, x' (s.relocate g) = relocated false g (x s)

namespace Mirrors

variable {g : Location → Location}

theorem pure (a : α) : Mirrors (σ := σ) g (Pure.pure a) (Pure.pure a) := fun _ => rfl

theorem bind {x x' : Session σ α} {f f' : α → Session σ β} (hx : Mirrors g x x')
    (hf : ∀ a, Mirrors g (f a) (f' a)) : Mirrors g (x >>= f) (x' >>= f') := by
  intro s
  rw [bind_apply, bind_apply, hx s]
  rcases x s with ⟨a, t⟩ | ⟨e, t⟩
  · exact hf a t
  · rfl

theorem discard {x x' : Session σ α} (hx : Mirrors g x x') : Mirrors g (discard x) (discard x') := by
  rw [discard_eq, discard_eq]
  exact hx.bind fun _ => pure ()

theorem fail (f : Fault) : Mirrors g (fail f : Session σ α) (fail (f.relocate g)) := fun _ => rfl

theorem onMachine {act : Act σ α} (h : Act.Avoids Fault.isPlaced act) :
    Mirrors g (onMachine act : Session σ α) (onMachine act) := by
  intro s
  have hmachine : (s.relocate g).machine = s.machine := rfl
  rw [onMachine_eq, onMachine_eq, hmachine]
  cases hact : act s.machine with
  | ok a m => rfl
  | error f m =>
    have hf := Fault.relocate_of_not_isPlaced (h _ _ _ hact) g
    simp only [relocated, Halt.relocate, hf, cond_false]
    rfl

theorem onMemory (op : Memory.Op α) : Mirrors g (onMemory op : Session σ α) (onMemory op) :=
  onMachine (.onMemory (fun _ => rfl) op)

theorem cell (a : Nat) :
    Mirrors g (Engine.onMachine (Machine.cell a) : Session σ Cell) (Engine.onMachine (Machine.cell a)) :=
  onMachine (.cell (fun _ => rfl) a)

theorem getHere : Mirrors g (getHere : Session σ Nat) getHere := fun _ => rfl

theorem define (name : String) (kind : Kind σ) : Mirrors g (define name kind) (define name kind) :=
  fun _ => rfl

/-! ### Compiling -/

theorem emit (v : Cell) : Mirrors g (emit v : Session σ Unit) (emit v) := (onMemory _).discard

theorem emitToken (xt : Nat) : Mirrors g (emitToken xt : Session σ Unit) (emitToken xt) := by
  unfold Engine.emitToken
  split
  · exact emit _
  · exact fail _

theorem emitWith (p : Primitive) (v : Cell) : Mirrors g (emitWith p v : Session σ Unit) (emitWith p v) :=
  (emitToken _).bind fun _ => emit v

theorem emitBranch (p : Primitive) : Mirrors g (emitBranch p : Session σ Nat) (emitBranch p) :=
  (emitToken _).bind fun _ => onMemory _

theorem codeEnd : Mirrors g (codeEnd : Session σ Cell) codeEnd := getHere.bind cell

theorem patch (hole : Nat) : Mirrors g (patch hole : Session σ Unit) (patch hole) :=
  codeEnd.bind fun _ => onMemory _

theorem emitString (p : Primitive) (text : String) :
    Mirrors g (emitString p text : Session σ Unit) (emitString p text) :=
  (cell _).bind fun v => (emitWith p v).bind fun _ => (onMemory _).discard.bind fun _ => onMemory _

theorem setOpened (d : Draft) (opened : List Open) :
    Mirrors g
    (setOpened d opened : Session σ Unit) (setOpened (d.relocate g) (opened.map (Open.relocate g))) :=
  fun _ => rfl

theorem closeDraft (d : Draft) : Mirrors g (closeDraft d : Session σ Unit) (closeDraft (d.relocate g)) :=
  (emitToken _).bind fun _ _ => rfl

theorem compileControl (d : Draft) (k : Control) (t : Token) :
    Mirrors g (compileControl d k t : Session σ Unit) (compileControl (d.relocate g) k (t.relocate g)) := by
  obtain ⟨name, xt, mark, opened⟩ := d
  cases k with
  | if_ => exact (emitBranch _).bind fun _ => setOpened _ _
  | begin_ => exact codeEnd.bind fun _ => setOpened _ _
  | do_ => exact (emitToken _).bind fun _ => codeEnd.bind fun _ => setOpened _ _
  | recurse => exact emitToken xt
  | exit => exact emitToken Primitive.exit.token
  | semicolon =>
    cases opened with
    | nil => exact closeDraft _
    | cons o outer => exact fail o.unterminated
  -- every other word closes or goes on with the innermost structure, if that is of its kind
  | else_ =>
    rcases opened with _ | ⟨⟨part, l⟩, outer⟩
    · exact fail _
    cases part with
    | if_ hole => exact (emitBranch _).bind fun _ => (patch hole).bind fun _ => setOpened _ _
    | else_ | begin_ | while_ | do_ => exact fail _
  | then_ =>
    rcases opened with _ | ⟨⟨part, l⟩, outer⟩
    · exact fail _
    cases part with
    | if_ hole | else_ hole => exact (patch hole).bind fun _ => setOpened _ _
    | begin_ | while_ | do_ => exact fail _
  | until_ | again_ =>
    rcases opened with _ | ⟨⟨part, l⟩, outer⟩
    · exact fail _
    cases part with
    | begin_ start => exact (emitWith _ start).bind fun _ => setOpened _ _
    | if_ | else_ | while_ | do_ => exact fail _
  | while_ =>
    rcases opened with _ | ⟨⟨part, l⟩, outer⟩
    · exact fail _
    cases part with
    | begin_ start => exact (emitBranch _).bind fun _ => setOpened _ _
    | if_ | else_ | while_ | do_ => exact fail _
  | repeat_ =>
    rcases opened with _ | ⟨⟨part, l⟩, outer⟩
    · exact fail _
    cases part with
    | while_ start hole => exact (emitWith _ start).bind fun _ => (patch hole).bind fun _ => setOpened _ _
    | if_ | else_ | begin_ | do_ => exact fail _
  | loop_ | plusLoop =>
    rcases opened with _ | ⟨⟨part, l⟩, outer⟩
    · exact fail _
    cases part with
    | do_ body => exact (emitWith _ body).bind fun _ => setOpened _ _
    | if_ | else_ | begin_ | while_ => exact fail _

theorem compilePhrase (d : Draft) (p : Phrase) :
    Mirrors g (compilePhrase d p : Session σ Unit) (compilePhrase (d.relocate g) (p.relocate g)) := by
  cases p with
  | word t =>
    intro s
    rw [Phrase.relocate, Engine.compilePhrase, Engine.compilePhrase, bind_of_ok (get_apply s),
      bind_of_ok (get_apply _)]
    dsimp only [relocate, Token.relocate]
    rcases s.dict.sense? t.text with _ | ⟨xt⟩ | ⟨v⟩
    · exact fail (.undefinedWord t.text t.location) s
    · exact emitToken xt s
    · exact emitWith .literal v s
  | control k t => exact compileControl d k t
  | define => exact fail _
  | text u t body =>
    cases body with
    | none => exact fail _
    | some text => exact emitString _ _
  | comment => exact pure ()

/-! ### Interpreting -/

theorem needName (t : Token) (name : Option String) :
    Mirrors g (needName t name : Session σ String) (needName (t.relocate g) name) := by
  cases name with
  | none => exact fail _
  | some w => exact pure w

theorem openDraft (name : String) : Mirrors g (openDraft name : Session σ Unit) (openDraft name) :=
  getHere.bind fun _ => (onMemory _).bind fun _ => getHere.bind fun _ _ => rfl

theorem interpretDefiner (t : Token) (name : Option String) (d : Definer) :
    Mirrors g (interpretDefiner t name d : Session σ Unit) (interpretDefiner (t.relocate g) name d) := by
  have hname := needName (σ := σ) (g := g) t name
  cases d with
  | colon => exact hname.bind openDraft
  | constant => exact (onMachine (.onData (fun _ => rfl) _)).bind fun v => hname.bind fun w => define w _
  | variable_ => exact hname.bind fun w => (onMemory _).bind fun a => (cell a).bind fun v => define w _
  | create => exact hname.bind fun w => (onMemory _).bind fun _ => codeEnd.bind fun v => define w _

theorem interpretString (u : StringUse) (text : String) :
    Mirrors g (interpretString u text : Session σ Unit) (interpretString u text) := by
  have hpush (v : Cell) : Act.Avoids Fault.isPlaced (Machine.push v : Act σ Unit) := .onData (fun _ => rfl) _
  have hcell (a : Nat) : Act.Avoids Fault.isPlaced (Machine.cell a : Act σ Cell) := .cell (fun _ => rfl) a
  cases u with
  | print => exact onMachine (.onOutput (fun _ => rfl) _)
  | push =>
    refine (onMemory _).bind fun a => onMachine ?_
    exact (hcell a).bind fun v => (hpush v).bind fun _ => (hcell _).bind hpush

end Mirrors

/-! ## Reading at other places -/

theorem runCode_relocate (g : Location → Location) (fuel entry : Nat) (s : Engine σ) :
    runCode fuel entry (s.relocate g) = relocated true g (runCode fuel entry s) := by
  rw [runCode_eq, runCode_eq]
  dsimp only [relocate]
  rcases (Machine.start entry >>= fun _ => s.dict.runFor (s.budget.getD fuel)) s.machine with ⟨_, m⟩ | ⟨f, m⟩
  · dsimp only
    split <;> rfl
  · rfl

/-- Running a word knows of no places. -/
theorem execute_relocate (g : Location → Location) (fuel xt : Nat) (s : Engine σ) :
    execute fuel xt (s.relocate g) = relocated true g (execute fuel xt s) := by
  rcases execute_cases xt s with ⟨entry, hrun⟩ | hact
  · rw [hrun fuel s rfl rfl, hrun fuel (s.relocate g) rfl rfl, runCode_relocate]
  · rw [hact fuel s rfl rfl, hact fuel (s.relocate g) rfl rfl, onMachine_eq, onMachine_eq]
    dsimp only [relocate]
    cases s.dict.perform xt s.machine <;> rfl

/-- Whether the phrase runs a word. -/
def runs (s : Engine σ) : Phrase → Bool
  | .word t => s.mode == .run && (s.dict.find? t.text).isSome
  | _ => false

theorem interpretPhrase_relocate (g : Location → Location) (fuel : Nat) {s : Engine σ}
    (hm : s.mode = .run) (p : Phrase) :
    interpretPhrase fuel (p.relocate g) (s.relocate g) =
      relocated (s.runs p) g (interpretPhrase fuel p s) := by
  cases p with
  | word t =>
    rw [Phrase.relocate, interpretPhrase, interpretPhrase, bind_of_ok (get_apply s),
      bind_of_ok (get_apply _), runs, hm]
    have hdict : (s.relocate g).dict.sense? (t.relocate g).text = s.dict.sense? t.text := rfl
    rw [hdict, Dictionary.sense?]
    cases s.dict.find? t.text with
    | some xt => exact execute_relocate g fuel xt s
    | none =>
      cases numeral? t.text with
      | none => exact Mirrors.fail (.undefinedWord t.text t.location) s
      | some v => exact Mirrors.onMachine (.onData (fun _ => rfl) _) s
  | control k t => exact Mirrors.fail (.compileOnly t.text t.location) s
  | define d t name => exact Mirrors.interpretDefiner t name d s
  | text u t body =>
    cases body with
    | none => exact Mirrors.fail (.missingQuote t.location) s
    | some text => exact Mirrors.interpretString u text s
  | comment closed => exact Mirrors.pure () s

/-- A phrase at another place does the same. -/
theorem feed_relocate (g : Location → Location) (fuel : Nat) (p : Phrase) (s : Engine σ) :
    feed fuel (p.relocate g) (s.relocate g) = relocated (s.runs p) g (feed fuel p s) := by
  cases hm : s.mode with
  | run =>
    have hm' : (s.relocate g).mode = .run := by rw [relocate, hm]; rfl
    rw [feed_of_run hm, feed_of_run hm']
    exact interpretPhrase_relocate g fuel hm p
  | compile d =>
    have hm' : (s.relocate g).mode = .compile (d.relocate g) := by rw [relocate, hm]; rfl
    have hruns : s.runs p = false := by cases p <;> simp [runs, hm]
    rw [feed_of_compile hm, feed_of_compile hm', hruns]
    exact Mirrors.compilePhrase d p s

/-- Whether what stops the reading is a word that was run. -/
def stoppedByWord (fuel : Nat) : List Phrase → Engine σ → Bool
  | [], _ => false
  | p :: ps, s =>
    match feed fuel p s with
    | .ok _ s' => stoppedByWord fuel ps s'
    | .error _ _ => s.runs p

theorem stoppedByWord_of_ok {fuel : Nat} {ps : List Phrase} {s s' : Engine σ}
    (h : feedAll fuel ps s = .ok () s') : stoppedByWord fuel ps s = false := by
  induction ps generalizing s with
  | nil => rfl
  | cons p ps ih =>
    obtain ⟨⟨⟩, s₁, hp, hps⟩ := bind_ok_iff.mp h
    rw [stoppedByWord, hp]
    exact ih hps

theorem feedAll_relocate (g : Location → Location) (fuel : Nat) (ps : List Phrase) (s : Engine σ) :
    feedAll fuel (ps.map (Phrase.relocate g)) (s.relocate g) =
      relocated (stoppedByWord fuel ps s) g (feedAll fuel ps s) := by
  induction ps generalizing s with
  | nil => rfl
  | cons p ps ih =>
    rw [List.map_cons, feedAll, feedAll, stoppedByWord, bind_apply, bind_apply, feed_relocate]
    rcases feed fuel p s with ⟨_, t⟩ | ⟨e, t⟩
    · exact ih t
    · rfl

/-- The halt of a reading at another place. -/
def haltAt (own : Bool) (g : Location → Location) (e : Halt) : Halt := bif own then e else e.relocate g

/-- Reading a text at another place changes nothing but the place in its fault. -/
theorem recovering_relocate (g : Location → Location) (fuel : Nat) (ps : List Phrase) {s : Engine σ}
    (hm : s.mode = .run) :
    recovering (do feedAll fuel (ps.map (Phrase.relocate g)); finish) s =
      mapError (haltAt (stoppedByWord fuel ps s) g) (recovering (do feedAll fuel ps; finish) s) := by
  have hread := feedAll_relocate g fuel ps s
  rw [relocate_of_run g hm] at hread
  rw [recovering_eq, recovering_eq, bind_apply, bind_apply, hread]
  cases h : feedAll fuel ps s with
  | error e t =>
    dsimp only [relocated, mapError, haltAt]
    rw [recover_relocate]
  | ok _ t =>
    rw [stoppedByWord_of_ok h]
    dsimp only [relocated]
    cases hmode : t.mode with
    | run => rw [relocate_of_run g hmode, finish_of_run hmode]; rfl
    | compile d =>
      have hmode' : (t.relocate g).mode = .compile (d.relocate g) := by rw [relocate, hmode]; rfl
      rw [finish_of_compile hmode, finish_of_compile hmode', Draft.unclosed_relocate]
      dsimp only
      rw [recover_relocate]
      rfl

end Engine

/-! ## Faults of the host -/

/-- A word of the host, which may do as it likes. -/
def Kind.isHost : Kind σ → Bool
  | .native _ _ | .hook _ => true
  | .builtin _ | .compiled _ | .constant _ => false

theorem Act.Avoids.isPlaced_run (p : Primitive) : Avoids Fault.isPlaced (p.run : Act σ Unit) := by
  have hsteering : Act.Steering (fun x => Avoids (σ := σ) Fault.isPlaced x) :=
    steering (fun _ => rfl) (fun _ => rfl) rfl
  exact (closed (fun _ => rfl) (fun _ => rfl) (fun _ => rfl) rfl rfl).run p (fun _ => hsteering)
      (fun _ => hsteering.toReturning)
    fun _ => ⟨fun _ _ => onMemory (fun _ => rfl) _, fun _ _ => onMemory (fun _ => rfl) _⟩

/-- Only a word of the host can name a place. -/
theorem Kind.isHost_of_isPlaced {k : Kind σ} {m m' : Machine σ} {f : Fault} (h : k.perform m = .error f m')
    (hf : f.isPlaced = true) : k.isHost = true := by
  have hnot {x : Act σ Unit} (hx : Act.Avoids Fault.isPlaced x) (he : x m = .error f m') : False := by
    rw [hx m f m' he] at hf
    cases hf
  cases k with
  | native | hook => rfl
  | builtin p => exact (hnot (.isPlaced_run p) h).elim
  | constant v => exact (hnot (.onData (fun _ => rfl) _) h).elim
  | compiled entry =>
    cases hip : m.ip with
    | none =>
      rw [perform, Machine.call_of_none entry hip] at h
      cases h
    | some a =>
      rw [perform, Machine.call_of_some entry hip] at h
      exact (hnot ((Act.Avoids.cell (fun _ => rfl) a).bind fun v =>
        (Act.Avoids.onReturn (fun _ => rfl) _).bind fun _ => .setIp _) h).elim

namespace Dictionary

/-- A word of the host raises the fault. -/
def HostRaises (d : Dictionary σ) (f : Fault) : Prop :=
  ∃ xt e m m', d.get? xt = some e ∧ e.kind.isHost = true ∧ e.kind.perform m = .error f m'

variable {d : Dictionary σ} {f : Fault} {m m' : Machine σ}

theorem hostRaises_perform {xt : Nat} (h : d.perform xt m = .error f m') (hf : f.isPlaced = true) :
    d.HostRaises f := by
  cases he : d.get? xt with
  | some e =>
    rw [perform, he] at h
    exact ⟨xt, e, m, m', he, Kind.isHost_of_isPlaced h hf, h⟩
  | none =>
    rw [perform, he] at h
    cases h
    cases hf

theorem hostRaises_step (h : d.step m = .error f m') (hf : f.isPlaced = true) : d.HostRaises f := by
  cases hip : m.ip with
  | none =>
    rw [d.step_of_none hip] at h
    cases h
  | some a =>
    rw [d.step_of_some hip] at h
    rcases bind_error_iff.mp h with h | ⟨v, m₁, -, h⟩
    · have hnot : f.isPlaced = false := Act.Avoids.onMemory (fun _ => rfl) _ _ _ _ h
      rw [hnot] at hf
      cases hf
    rcases bind_error_iff.mp h with h | ⟨_, m₂, -, h⟩
    · cases h
    rcases bind_error_iff.mp h with h | ⟨xt, m₃, -, h⟩
    · have hnot : f.isPlaced = false := Act.Avoids.count v rfl _ _ _ h
      rw [hnot] at hf
      cases hf
    · exact hostRaises_perform h hf

theorem hostRaises_runFor {n : Nat} (h : d.runFor n m = .error f m') (hf : f.isPlaced = true) :
    d.HostRaises f := by
  induction n generalizing m with
  | zero => cases h
  | succ n ih =>
    cases hip : m.ip with
    | none =>
      rw [d.runFor_of_ip_none hip] at h
      cases h
    | some a =>
      rw [d.runFor_succ (by rw [hip]; rfl)] at h
      rcases bind_error_iff.mp h with h | ⟨_, m₁, -, h⟩
      · exact hostRaises_step h hf
      · exact ih h

end Dictionary

namespace Engine

theorem execute_error {fuel xt : Nat} {s s' : Engine σ} {e : Halt} (h : execute fuel xt s = .error e s') :
    (∃ m, s' = { s with machine := m }) ∧ ∀ f, e = .fault f → f.isPlaced = true → s.dict.HostRaises f := by
  rcases execute_cases xt s with ⟨entry, hrun⟩ | hact
  · rw [hrun fuel s rfl rfl, runCode_launched] at h
    cases hr : s.dict.runFor (s.budget.getD fuel) (s.launched entry) with
    | ok _ m =>
      rw [hr] at h
      dsimp only at h
      split at h <;> cases h
      refine ⟨⟨m, rfl⟩, fun f hf hplaced => ?_⟩
      cases hb : s.budget <;> rw [hb] at hf <;> cases hf
      cases hplaced
    | error f m =>
      rw [hr] at h
      cases h
      refine ⟨⟨m, rfl⟩, fun f' hf hplaced => ?_⟩
      cases hf
      exact Dictionary.hostRaises_runFor hr hplaced
  · rw [hact fuel s rfl rfl, onMachine_eq] at h
    cases hp : s.dict.perform xt s.machine with
    | ok _ m => rw [hp] at h; cases h
    | error f m =>
      rw [hp] at h
      cases h
      refine ⟨⟨m, rfl⟩, fun f' hf hplaced => ?_⟩
      cases hf
      exact Dictionary.hostRaises_perform hp hplaced

theorem runs_eq_true {s : Engine σ} {p : Phrase} (h : s.runs p = true) (fuel : Nat) :
    s.mode = .run ∧ ∃ xt, feed fuel p s = execute fuel xt s := by
  cases p with
  | control | define | text | comment => cases h
  | word t =>
    simp only [runs, Bool.and_eq_true, beq_iff_eq, Option.isSome_iff_exists] at h
    obtain ⟨hm, xt, hxt⟩ := h
    refine ⟨hm, xt, ?_⟩
    rw [feed_of_run hm, interpretPhrase, bind_of_ok (get_apply s), Dictionary.sense?, hxt]

/-- A word that stopped a reading with a place in its fault is a word of the host. -/
theorem hostRaises_of_stoppedByWord {fuel : Nat} {ps : List Phrase} {s t : Engine σ} {f : Fault}
    (hown : stoppedByWord fuel ps s = true) (h : feedAll fuel ps s = .error (.fault f) t)
    (hf : f.isPlaced = true) :
    t.mode = .run ∧ t.dict.HostRaises f := by
  induction ps generalizing s with
  | nil => cases hown
  | cons p ps ih =>
    cases hp : feed fuel p s with
    | ok _ s₁ =>
      rw [stoppedByWord, hp] at hown
      rw [feedAll, bind_of_ok hp] at h
      exact ih hown h
    | error e s₁ =>
      rw [stoppedByWord, hp] at hown
      rw [feedAll, bind_of_error hp] at h
      cases h
      obtain ⟨hm, xt, hrun⟩ := runs_eq_true hown fuel
      rw [hrun] at hp
      obtain ⟨⟨m, rfl⟩, hraises⟩ := execute_error hp
      exact ⟨hm, hraises f rfl hf⟩

/-! ## Whole texts -/

theorem feed_isWhole {fuel : Nat} {p : Phrase} {s s' : Engine σ} (h : feed fuel p s = .ok () s') :
    p.isWhole = true ∨ p = .comment false := by
  cases p with
  | word | control => exact .inl rfl
  | comment closed => cases closed <;> simp [Phrase.isWhole]
  | define d t name =>
    cases name with
    | some name => exact .inl rfl
    | none =>
      cases hm : s.mode with
      | compile draft =>
        rw [feed_of_compile hm] at h
        cases h
      | run =>
        rw [feed_of_run hm, interpretPhrase] at h
        cases d with
        | colon | variable_ | create => cases h
        | constant =>
          obtain ⟨v, s₁, -, h⟩ := bind_ok_iff.mp h
          cases h
  | text u t body =>
    cases body with
    | some body => exact .inl rfl
    | none =>
      cases hm : s.mode with
      | compile draft =>
        rw [feed_of_compile hm] at h
        cases h
      | run =>
        rw [feed_of_run hm] at h
        cases h

/-- What was read without a fault was whole, but for a comment that the end of the text left
    open. -/
theorem feedAll_isWhole {fuel : Nat} {ps : List Phrase} {s s' : Engine σ}
    (h : feedAll fuel ps s = .ok () s') : ∀ p ∈ ps, p.isWhole = true ∨ p = .comment false := by
  induction ps generalizing s with
  | nil => exact List.forall_mem_nil _
  | cons p ps ih =>
    obtain ⟨⟨⟩, s₁, hp, hps⟩ := bind_ok_iff.mp h
    exact List.forall_mem_cons.mpr ⟨feed_isWhole hp, ih hps⟩

theorem feedAll_comment (fuel : Nat) (ps : List Phrase) (closed : Bool) :
    (feedAll fuel (ps ++ [.comment closed]) : Session σ Unit) = feedAll fuel ps := by
  have hcomment (s : Engine σ) : feedAll fuel [.comment closed] s = .ok () s := by
    cases hm : s.mode with
    | run => rw [feedAll, bind_of_ok (t := s) (by rw [feed_of_run hm]; rfl)]; rfl
    | compile d => rw [feedAll, bind_of_ok (t := s) (by rw [feed_of_compile hm]; rfl)]; rfl
  funext s
  rw [feedAll_append, bind_apply]
  cases feedAll fuel ps s with
  | ok _ t => exact hcomment t
  | error e t => rfl

theorem interpret_ok_iff {fuel : Nat} {label text : String} {s s' : Engine σ} :
    interpret fuel label text s = .ok () s' ↔
      feedAll fuel (Source.ofText label text).phrases s = .ok () s' ∧ s'.mode = .run := by
  rw [interpret, recovering_eq, bind_apply]
  rcases feedAll fuel (Source.ofText label text).phrases s with ⟨_, t⟩ | ⟨e, t⟩
  · dsimp only
    cases hm : t.mode with
    | run =>
      rw [finish_of_run hm]
      constructor
      · intro h
        cases h
        exact ⟨rfl, hm⟩
      · rintro ⟨h, -⟩
        exact h
    | compile d =>
      rw [finish_of_compile hm]
      constructor
      · intro h
        cases h
      · rintro ⟨h, hrun⟩
        cases h
        rw [hm] at hrun
        cases hrun
  · constructor
    · intro h; cases h
    · intro h; cases h.1

/-- A text cut after a line reads as its two pieces read one after the other: with the same
    outcome and the same state, the place in a fault of the second piece being so many lines
    further down as the first one has. A fault of a word that was run is the same in both, and it
    names no place unless a word of the host made one up. -/
theorem interpret_append {fuel : Nat} {label a : String} {s s₁ : Engine σ}
    (hline : a.toList.getLast? = some '\n') (hclosed : .comment false ∉ (Source.ofText label a).phrases)
    (ha : interpret fuel label a s = .ok () s₁) (b : String) :
    interpret fuel label (a ++ b) s =
        mapError (haltAt (stoppedByWord fuel (Source.ofText label b).phrases s₁)
          (Location.below (a.toList.count '\n')))
          (interpret fuel label b s₁) ∧
      ∀ f t, stoppedByWord fuel (Source.ofText label b).phrases s₁ = true →
      interpret fuel label b s₁ = .error (.fault f) t →
        f.isPlaced = true → t.dict.HostRaises f := by
  obtain ⟨hread, hmode⟩ := interpret_ok_iff.mp ha
  have hwhole : ∀ p ∈ (Source.ofText label a).phrases, p.isWhole = true := by
    intro p hp
    rcases feedAll_isWhole hread p hp with hw | rfl
    · exact hw
    · exact absurd hp hclosed
  have hparted : Source.Parted a.toList b.toList := by
    left
    intro c hc
    rw [hline] at hc
    cases hc
    rfl
  have hphrases : (Source.ofText label (a ++ b)).phrases =
      (Source.ofText label a).phrases ++
        (Source.ofText label b).phrases.map (Phrase.relocate (Location.below (a.toList.count '\n'))) := by
    rcases (Source.ofText label a).phrases_extend hparted hwhole with hsplit | ⟨⟨c, hc, hne⟩, -⟩
    · have hending : (Source.ofText label a).ending = (Location.start label).below (a.toList.count '\n') :=
        Location.advance_lines label hline
      rw [Source.ofText, String.toList_append]
      rw [hending, Source.phrases_below] at hsplit
      exact hsplit
    · exact absurd (Option.some.inj (hc.symm.trans hline)) hne
  constructor
  · have hsplit : interpret fuel label (a ++ b) s = recovering (do
        feedAll fuel
            ((Source.ofText label b).phrases.map (Phrase.relocate (Location.below (a.toList.count '\n'))))
        finish) s₁ := by
      rw [interpret, recovering_eq, recovering_eq, hphrases, feedAll_append, bind_apply,
        bind_of_ok hread, ← bind_apply]
    rw [hsplit, recovering_relocate _ _ _ hmode]
    rfl
  · intro f t hown h hf
    rw [interpret, recovering_eq, bind_apply] at h
    cases hb : feedAll fuel (Source.ofText label b).phrases s₁ with
    | ok _ t₁ =>
      rw [stoppedByWord_of_ok hb] at hown
      cases hown
    | error e t₁ =>
      rw [hb] at h
      cases h
      obtain ⟨hrun, hraises⟩ := hostRaises_of_stoppedByWord hown hb hf
      rwa [recover, discardDraft_of_run hrun]

/-- Two pieces of a program; the second has a word that nothing defines in its second line. -/
def halvesText : String := ": half 2 / ;\n( halved twice,\nthat is ) 8 half\n"

def quarterText : String := "half .\n  quarter ."

/-- The engine after the first piece. -/
def halved : Engine Unit := stateAfter (interpret 10 "halves" halvesText) fresh

theorem interpret_append_halves :
    halvesText.toList.getLast? = some '\n' ∧ .comment false ∉ (Source.ofText "halves" halvesText).phrases ∧
    interpret 10 "halves" halvesText fresh = .ok () halved ∧
    (∃ t, interpret 10 "halves" quarterText halved =
      .error (.fault (.undefinedWord "quarter" ⟨"halves", 2, 3⟩)) t ∧
      interpret 10 "halves" (halvesText ++ quarterText) fresh =
        .error (.fault (.undefinedWord "quarter" ⟨"halves", 5, 3⟩)) t) := by
  have hline : halvesText.toList.getLast? = some '\n' := by decide +kernel
  have hclosed : .comment false ∉ (Source.ofText "halves" halvesText).phrases := by decide +kernel
  have hread : interpret 10 "halves" halvesText fresh = .ok () halved := ok_of_succeeds (by decide +kernel)
  have hown : stoppedByWord 10 (Source.ofText "halves" quarterText).phrases halved = false := by
    decide +kernel
  have hfault : failure? (interpret 10 "halves" quarterText) halved =
      some (.fault (.undefinedWord "quarter" ⟨"halves", 2, 3⟩)) := by decide +kernel
  have hlines : halvesText.toList.count '\n' = 3 := by decide +kernel
  have hwhole := (interpret_append hline hclosed hread quarterText).1
  refine ⟨hline, hclosed, hread, _, error_of_failure? hfault, ?_⟩
  rw [hwhole, error_of_failure? hfault, hown, hlines]
  rfl

end Engine

end Handheld
