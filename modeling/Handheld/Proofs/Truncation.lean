/-
  Handheld.Proofs.Truncation — a full output cuts off the end of what is printed, and only that.

  The same text is read twice, once with less room for the output. No word can tell how much
  room there is, so both readings go on alike until a piece of text does not fit the smaller
  output; there the one with less room stops, and the other one only prints on (`Trims`). An
  instruction that does not fit has changed neither the memory nor the host, so what the first
  reading leaves of them is what the second one comes through (`Passes`).
-/

import Handheld.Proofs.Commuting
import Handheld.Proofs.ConsoleRoom

namespace Handheld

variable {ε δ S T α β σ : Type} {c : Nat}

/-! ## Two runs, one with less room -/

/-- The state that an outcome leaves. -/
def endState : EStateM.Result ε S α → S
  | .ok _ s => s
  | .error _ s => s

/-- How a run ends beside one with more room: alike, or cut short by a fault for want of room. -/
inductive Trimmed (R Cut : S → S → Prop) (full : ε → Bool) :
    EStateM.Result ε S α → EStateM.Result ε S α → Prop
  | ok {a : α} {s s' : S} : R s s' → Trimmed R Cut full (.ok a s) (.ok a s')
  | error {e : ε} {s s' : S} : R s s' → Trimmed R Cut full (.error e s) (.error e s')
  | cut {e : ε} {s : S} {r : EStateM.Result ε S α} : full e = true → Cut s (endState r) →
      Trimmed R Cut full (.error e s) r

/-- An outcome as it is seen in a larger state, of which its own state is a part. -/
def outside (f : S → T) (k : ε → δ) : EStateM.Result ε S α → EStateM.Result δ T α
  | .ok a s => .ok a (f s)
  | .error e s => .error (k e) (f s)

theorem endState_outside (f : S → T) (k : ε → δ) (r : EStateM.Result ε S α) :
    endState (outside f k r) = f (endState r) := by
  cases r <;> rfl

theorem Trimmed.outside {R Cut : S → S → Prop} {full : ε → Bool} {R' Cut' : T → T → Prop}
    {full' : δ → Bool} {f f' : S → T}
    {k : ε → δ} {r r' : EStateM.Result ε S α} (h : Trimmed R Cut full r r')
    (hR : ∀ s s', R s s' → R' (f s) (f' s'))
    (hcut : ∀ s s', Cut s s' → Cut' (f s) (f' s')) (hk : ∀ e, full e = true → full' (k e) = true) :
    Trimmed R' Cut' full' (outside f k r) (outside f' k r') := by
  cases h with
  | ok h => exact .ok (hR _ _ h)
  | error h => exact .error (hR _ _ h)
  | cut hfull h =>
    refine .cut (hk _ hfull) ?_
    rw [endState_outside]
    exact hcut _ _ h

/-- Whatever it fails with, what a run leaves is beside what is left with more room. -/
theorem Trimmed.cut_of_error {R Cut : S → S → Prop} {full : ε → Bool} {e : ε} {s : S}
    {r : EStateM.Result ε S α}
    (h : Trimmed R Cut full (.error e s) r) (hR : ∀ s s', R s s' → Cut s s') : Cut s (endState r) := by
  cases h with
  | error h => exact hR _ _ h
  | cut _ h => exact h

/-- In related states it ends alike or is cut short, and what is cut short stays so. -/
structure Trims (R Cut : S → S → Prop) (full : ε → Bool) (x : EStateM ε S α) : Prop where
  runs (s s' : S) : R s s' → Trimmed R Cut full (x s) (x s')
  grows : Keeps (fun s s' => ∀ t, Cut t s → Cut t s') x

namespace Trims

variable {R Cut : S → S → Prop} {full : ε → Bool}

theorem pure (a : α) : Trims R Cut full (pure a : EStateM ε S α) := ⟨fun _ _ h => .ok h, fun _ _ h => h⟩

theorem throw (e : ε) : Trims R Cut full (throw e : EStateM ε S α) := ⟨fun _ _ h => .error h, fun _ _ h => h⟩

theorem modify {f : S → S} (h : ∀ s s', R s s' → R (f s) (f s')) (hf : ∀ t s, Cut t s → Cut t (f s)) :
    Trims R Cut full (modify f : EStateM ε S Unit) :=
  ⟨fun s s' hR => .ok (h s s' hR), fun s t ht => hf t s ht⟩

theorem bind {x : EStateM ε S α} {f : α → EStateM ε S β} (hx : Trims R Cut full x)
    (hf : ∀ a, Trims R Cut full (f a)) : Trims R Cut full (x >>= f) where
  runs s s' h := by
    have hrun := hx.runs s s' h
    rw [bind_apply, bind_apply]
    cases hs : x s with
    | ok a t =>
      rw [hs] at hrun
      cases hs' : x s' with
      | ok b t' =>
        rw [hs'] at hrun
        cases hrun with
        | ok hR => exact (hf a).runs t t' hR
      | error e t' => rw [hs'] at hrun; cases hrun
    | error e t =>
      rw [hs] at hrun
      cases hs' : x s' with
      | ok b t' =>
        rw [hs'] at hrun
        cases hrun with
        | cut hfull hcut => exact .cut hfull ((hf b).grows t' t hcut)
      | error e' t' =>
        rw [hs'] at hrun
        cases hrun with
        | error hR => exact .error hR
        | cut hfull hcut => exact .cut hfull hcut
  grows := .bind ⟨fun _ _ h => h, fun h g t ht => g t (h t ht)⟩ hx.grows fun a => (hf a).grows

/-- What related states have in common may be read off them. -/
theorem read {f : β → EStateM ε S α} (view : S → β) (hview : ∀ s s', R s s' → view s' = view s)
    (hf : ∀ b, Trims R Cut full (f b)) : Trims R Cut full (get >>= fun s => f (view s)) where
  runs s s' h := by
    show Trimmed R Cut full (f (view s) s) (f (view s') s')
    rw [hview s s' h]
    exact (hf _).runs s s' h
  grows s := (hf (view s)).grows s

/-- What it does may depend on anything that related states have in common. -/
theorem of_common {x : EStateM ε S α}
    (h : ∀ s, (∃ s', R s s') ∨ (∃ t, Cut t s) → ∃ y, x s = y s ∧ (∀ s', R s s' → x s' = y s') ∧
      Trims R Cut full y) :
    Trims R Cut full x where
  runs s s' hR := by
    obtain ⟨y, hs, hs', hy⟩ := h s (.inl ⟨s', hR⟩)
    rw [hs, hs' s' hR]
    exact hy.runs s s' hR
  grows s t ht := by
    obtain ⟨y, hs, -, hy⟩ := h s (.inr ⟨t, ht⟩)
    have hsame : stateAfter x s = stateAfter y s := by rw [stateAfter, stateAfter, hs]
    rw [hsame]
    exact hy.grows s t ht

end Trims

/-! ## Outputs -/

namespace Output

def withRoom (c : Nat) (o : Output) : Output := { o with capacity := c }

/-- The other output has the same text and room for `c` bytes, which are no fewer. -/
def Widens (c : Nat) (o o' : Output) : Prop := o.capacity ≤ c ∧ o' = o.withRoom c

/-- The text of one is where the text of the other begins. -/
def Precedes (o o' : Output) : Prop := o.text.toList <+: o'.text.toList

theorem precedes_append (o : Output) (s : String) : o.Precedes { o with text := o.text ++ s } := by
  unfold Precedes
  rw [String.toList_append]
  exact List.prefix_append _ _

theorem write_of_le {s : String} {o : Output} (h : o.text.utf8ByteSize + s.utf8ByteSize ≤ o.capacity) :
    write s o = .ok () { o with text := o.text ++ s } := if_pos h

theorem write_of_lt {s : String} {o : Output} (h : o.capacity < o.text.utf8ByteSize + s.utf8ByteSize) :
    write s o = .error .full o := if_neg (Nat.not_le.mpr h)

theorem precedes_write (s : String) (o : Output) : o.Precedes (endState (write s o)) := by
  rcases Nat.lt_or_ge o.capacity (o.text.utf8ByteSize + s.utf8ByteSize) with h | h
  · rw [write_of_lt h]
    exact List.prefix_refl _
  · rw [write_of_le h]
    exact precedes_append o s

theorem precedes_writePieces (pieces : List String) (o : Output) :
    o.Precedes (endState (writePieces pieces o)) := by
  induction pieces generalizing o with
  | nil => exact List.prefix_refl _
  | cons piece pieces ih =>
    rw [writePieces_cons]
    rcases Nat.lt_or_ge o.capacity (o.text.utf8ByteSize + piece.utf8ByteSize) with h | h
    · rw [write_of_lt h]
      exact List.prefix_refl _
    · rw [write_of_le h]
      exact List.IsPrefix.trans (precedes_append o piece) (ih _)

theorem write_trims (s : String) : Trims (Widens c) Precedes (fun _ => true) (write s) where
  runs o o' := by
    rintro ⟨hc, rfl⟩
    rcases Nat.lt_or_ge o.capacity (o.text.utf8ByteSize + s.utf8ByteSize) with h | h
    · rw [write_of_lt h]
      exact .cut rfl (precedes_write s (o.withRoom c))
    · rw [write_of_le h, write_of_le (o := o.withRoom c) (Nat.le_trans h hc)]
      exact .ok ⟨hc, rfl⟩
  grows o _ ht := List.IsPrefix.trans ht (precedes_write s o)

theorem writePieces_trims (pieces : List String) :
    Trims (Widens c) Precedes (fun _ => true) (writePieces pieces) := by
  refine ⟨fun o o' => ?_, fun o _ ht => List.IsPrefix.trans ht (precedes_writePieces pieces o)⟩
  rintro ⟨hc, rfl⟩
  induction pieces generalizing o with
  | nil => exact .ok ⟨hc, rfl⟩
  | cons piece pieces ih =>
    rcases Nat.lt_or_ge o.capacity (o.text.utf8ByteSize + piece.utf8ByteSize) with h | h
    · rw [writePieces_cons piece pieces o, write_of_lt h]
      exact .cut rfl (precedes_writePieces _ (o.withRoom c))
    · rw [writePieces_cons, writePieces_cons, write_of_le h,
        write_of_le (o := o.withRoom c) (Nat.le_trans h hc)]
      exact ih { o with text := o.text ++ piece } hc

end Output

/-! ## Machines -/

def Surface.withRoom (c : Nat) (s : Surface σ) : Surface σ := { s with output := s.output.withRoom c }

/-- The other surface has room for `c` bytes of output, which are no fewer. -/
def Surface.Widens (c : Nat) (s s' : Surface σ) : Prop := s.output.capacity ≤ c ∧ s' = s.withRoom c

namespace Machine

/-- The machine with another output. -/
def saying (m : Machine σ) (o : Output) : Machine σ := { m with output := o }

def withRoom (c : Nat) (m : Machine σ) : Machine σ := m.saying (m.output.withRoom c)

/-- The other machine has room for `c` bytes of output, which are no fewer. -/
def Widens (c : Nat) (m m' : Machine σ) : Prop := m.output.capacity ≤ c ∧ m' = m.withRoom c

end Machine

namespace Act

open Machine

/-- With more room for the output it acts alike, or is cut short where there is less. -/
abbrev Trimming (c : Nat) (x : Act σ α) : Prop :=
  Trims (Widens c) (fun m m' => m.output.Precedes m'.output) Fault.isOutput x

/-- It acts the same whatever was printed, and prints nothing. -/
abbrev Mute (x : Act σ α) : Prop := Commutes (fun o m => m.saying o) x

theorem outlying_saying : Outlying fun o (m : Machine σ) => m.saying o where
  data _ _ _ := rfl
  ret _ _ _ := rfl
  memory _ _ _ := rfl
  ip _ _ _ := rfl
  base _ _ _ := rfl

namespace Mute

theorem onData (op : Stack.Op α) : Mute (onData op : Act σ α) := Commutes.onData (fun _ _ _ => rfl) op

theorem onReturn (op : Stack.Op α) : Mute (onReturn op : Act σ α) := Commutes.onReturn (fun _ _ _ => rfl) op

theorem onMemory (op : Memory.Op α) : Mute (onMemory op : Act σ α) := Commutes.onMemory (fun _ _ _ => rfl) op

theorem output_stateAfter {x : Act σ α} (hx : Mute x) (m : Machine σ) :
    (stateAfter x m).output = m.output := by
  have hsame : stateAfter x m = (stateAfter x m).saying m.output := hx.stateAfter_eq m.output m
  exact (congrArg Machine.output hsame :)

theorem trims {x : Act σ α} (hx : Mute x) : Trimming c x where
  runs m m' := by
    rintro ⟨hc, rfl⟩
    have houtput := hx.output_stateAfter m
    rw [withRoom, hx _ m]
    rw [stateAfter] at houtput
    cases h : x m with
    | ok a t =>
      rw [h] at houtput
      exact .ok ⟨by rw [houtput]; exact hc, by rw [withRoom, houtput]⟩
    | error f t =>
      rw [h] at houtput
      exact .error ⟨by rw [houtput]; exact hc, by rw [withRoom, houtput]⟩
  grows m t ht := by rw [hx.output_stateAfter m]; exact ht

end Mute

namespace Trimming

theorem onOutput {op : Output.Op α} (h : Trims (Output.Widens c) Output.Precedes (fun _ => true) op) :
    Trimming c (onOutput op : Act σ α) where
  runs m m' := by
    rintro ⟨hc, rfl⟩
    have hlift (n : Machine σ) : Machine.onOutput op n = outside n.saying .output (op n.output) := by
      rw [onOutput_eq]
      cases op n.output <;> rfl
    rw [hlift, hlift]
    refine (h.runs m.output (m.output.withRoom c) ⟨hc, rfl⟩).outside ?_ (fun _ _ h => h) fun _ _ => rfl
    rintro o _ ⟨hc, rfl⟩
    exact ⟨hc, rfl⟩
  grows m t ht := by
    rw [stateAfter_onOutput]
    exact h.grows m.output t.output ht

theorem onSurface {op : Memory → EStateM Fault (Surface σ) α}
    (h : ∀ memory,
      Trims (Surface.Widens c) (fun s s' => s.output.Precedes s'.output) Fault.isOutput (op memory)) :
    Trimming c (onSurface op) where
  runs m m' := by
    rintro ⟨hc, rfl⟩
    have hlift (n : Machine σ) : Machine.onSurface op n =
        outside (fun s => { n with host := s.host, output := s.output }) id
          (op n.memory ⟨n.host, n.output⟩) := by
      rw [onSurface_eq]
      cases op n.memory ⟨n.host, n.output⟩ <;> rfl
    rw [hlift, hlift]
    refine ((h m.memory).runs ⟨m.host, m.output⟩ (.withRoom c ⟨m.host, m.output⟩) ⟨hc, rfl⟩).outside ?_
        (fun _ _ h => h)
      fun _ h => h
    rintro s _ ⟨hc, rfl⟩
    exact ⟨hc, rfl⟩
  grows m t ht := by
    rw [stateAfter_onSurface]
    exact (h m.memory).grows ⟨m.host, m.output⟩ ⟨t.host, t.output⟩ ht

theorem closed : Act.Closed (σ := σ) (fun x => Trimming c x) where
  pure a := .pure a
  bind := .bind
  divideByZero := .throw _
  push _ := (Mute.onData _).trims
  pop := (Mute.onData _).trims
  peek := (Mute.onData _).trims
  peekUnder _ := (Mute.onData _).trims
  rpeek := (Mute.onReturn _).trims
  rpeekUnder _ := (Mute.onReturn _).trims
  address v := Mute.trims (.address v)
  cell a := Mute.trims (.cell a)
  count v := Mute.trims (.count v _)
  fetchCell _ := (Mute.onMemory _).trims
  fetchByte _ := (Mute.onMemory _).trims
  fetchBytes _ _ := (Mute.onMemory _).trims
  allot _ := (Mute.onMemory _).trims
  bumpCell _ := (Mute.onMemory _).trims
  bumpBytes _ := (Mute.onMemory _).trims
  write s := onOutput (Output.write_trims s)
  writeBytes _ := onOutput (Output.write_trims _)
  print _ := onOutput (Output.writePieces_trims _)
  depth hf := .read (fun m => m.data.depth) (by rintro m _ ⟨-, rfl⟩; rfl) hf
  here hf := .read (fun m => m.memory.here) (by rintro m _ ⟨-, rfl⟩; rfl) hf

theorem run (p : Primitive) : Trimming c (p.run : Act σ Unit) := by
  have hs := Commutes.steering (outlying_saying (σ := σ))
  refine closed.run p (fun _ => ?_) (fun _ => ⟨fun v => Mute.trims (hs.rpush v), Mute.trims hs.rpop⟩)
    fun _ => ⟨fun _ _ => (Mute.onMemory _).trims, fun _ _ => (Mute.onMemory _).trims⟩
  exact ⟨⟨fun v => Mute.trims (hs.rpush v), Mute.trims hs.rpop⟩, Mute.trims hs.operand,
      fun v => Mute.trims (hs.jumpTo v),
    fun n => Mute.trims (hs.skipInline n), fun v => Mute.trims (hs.missingOperand v), Mute.trims hs.leave⟩

end Trimming

end Act

/-! ## What does not fit changes nothing -/

/-- Neither the memory nor the host is changed. -/
def Machine.Spared (m m' : Machine σ) : Prop := m'.memory = m.memory ∧ m'.host = m.host

theorem Machine.spared_shallow : Shallow (Spared (σ := σ)) where
  refl _ := ⟨rfl, rfl⟩
  trans h g := ⟨g.1.trans h.1, g.2.trans h.2⟩
  data _ _ _ := ⟨rfl, rfl⟩
  output _ _ _ := ⟨rfl, rfl⟩

/-- What an instruction leaves that was cut short: the memory and the host are as they were, and
    what is printed goes on from what was. -/
structure Machine.CutAt (m m' : Machine σ) : Prop where
  spared : m.Spared m'
  printed : m.output.Precedes m'.output

namespace Act

open Machine

/-- Where it fails for want of room, it has changed neither the memory nor the host. -/
def Sparing (x : Act σ α) : Prop := ∀ m f m', x m = .error f m' → f.isOutput = true → m.Spared m'

namespace Sparing

theorem of_avoids {x : Act σ α} (h : Avoids Fault.isOutput x) : Sparing x := by
  intro m f m' hx hf
  rw [h m f m' hx] at hf
  cases hf

theorem of_keeps {x : Act σ α} (h : Keeps Spared x) : Sparing x := fun _ _ _ hx _ => h.of_error hx

/-- First what always fits and changes nothing. -/
theorem after {x : Act σ α} {f : α → Act σ β} (hx : Avoids Fault.isOutput x) (hk : Keeps Spared x)
    (hf : ∀ a, Sparing (f a)) : Sparing (x >>= f) := by
  intro m e m' h he
  rcases bind_error_iff.mp h with h | ⟨a, m₁, h₁, h⟩
  · exact of_avoids hx m e m' h he
  · exact spared_shallow.trans (hk.of_ok h₁) (hf a m₁ e m' h he)

/-- Then what always fits. -/
theorem before {x : Act σ α} {f : α → Act σ β} (hx : Sparing x)
    (hf : ∀ a, Avoids Fault.isOutput (f a)) : Sparing (x >>= f) := by
  intro m e m' h he
  rcases bind_error_iff.mp h with h | ⟨a, m₁, -, h⟩
  · exact hx m e m' h he
  · rw [hf a m₁ e m' h] at he
    cases he

theorem run (p : Primitive) : Sparing (p.run : Act σ Unit) := by
  have hstack (e : StackFault) : Fault.isOutput (.stack e) = false := rfl
  have hmemory (e : MemoryFault) : Fault.isOutput (.memory e) = false := rfl
  by_cases hp : p.prints = true
  · refine of_keeps (spared_shallow.printing.run (fun _ => ?_) hp)
    exact steering_keeps spared_shallow.toOrdered (fun _ _ _ => ⟨rfl, rfl⟩) fun _ _ => ⟨rfl, rfl⟩
  · have hquiet := Avoids.quiet (σ := σ) hstack hmemory rfl rfl
    have hsteering := Avoids.steering (σ := σ) hstack hmemory rfl
    refine of_avoids (hquiet.run p (fun _ => hsteering) (fun _ => hsteering.toReturning) (fun _ => ?_)
        (Bool.eq_false_iff.mpr hp))
    exact ⟨fun _ _ => .onMemory hmemory _, fun _ _ => .onMemory hmemory _⟩

theorem callNative (arity : Nat) {f : Native σ}
    (hf : ∀ args memory s e s', f args memory s = .error e s' → e.isOutput = true → s'.host = s.host) :
    Sparing (callNative arity f) := by
  refine after (.onData (fun _ => rfl) _) (spared_shallow.onData (Stack.keeps_popMany arity)) fun args => ?_
  refine before (fun m e m' h he => ?_) fun r => ?_
  · rw [onSurface_eq] at h
    split at h <;> cases h
    next hs => exact ⟨rfl, hf args _ _ _ _ hs he⟩
  · split
    · exact .onData (fun _ => rfl) _
    · exact .pure ()

end Sparing

/-- A word that cannot tell how much room there is for the output, and changes nothing where it
    does not fit. -/
structure Candid (x : Act σ α) : Prop where
  trims (c : Nat) : Trimming c x
  spares : Sparing x

theorem Candid.cutAt {x : Act σ α} (hx : x.Candid) {m m' : Machine σ} {f : Fault}
    (h : x m = .error f m') (hf : f.isOutput = true) : m.CutAt m' := by
  have hgrows := (hx.trims 0).grows m m (List.prefix_refl _)
  rw [stateAfter_error h] at hgrows
  exact ⟨hx.spares m f m' h hf, hgrows⟩

theorem candid_write (s : String) : Candid (write s : Act σ Unit) :=
  ⟨fun _ => Trimming.closed.write s, .of_keeps (spared_shallow.printing.write s)⟩

end Act

/-- A word of the host that cannot tell how much room there is for the output, and leaves the
    host alone where it does not fit. -/
structure Native.Candid (f : Native σ) : Prop where
  trims (c : Nat) (args : List Cell) (memory : Memory) :
    Trims (Surface.Widens c) (fun s s' => s.output.Precedes s'.output) Fault.isOutput (f args memory)
  spares (args : List Cell) (memory : Memory) (s : Surface σ) (e : Fault) (s' : Surface σ) :
    f args memory s = .error e s' → e.isOutput = true → s'.host = s.host

def Kind.Candid : Kind σ → Prop
  | .native _ f => f.Candid
  | .hook act => act.Candid
  | .builtin _ | .compiled _ | .constant _ => True

theorem Kind.candid_perform {k : Kind σ} (hk : k.Candid) : Act.Candid k.perform := by
  cases k with
  | hook act => exact hk
  | builtin p => exact ⟨fun _ => .run p, .run p⟩
  | compiled entry =>
    exact ⟨fun _ => Act.Mute.trims (.call Act.outlying_saying entry),
        .of_keeps (Machine.keeps_call Machine.spared_shallow.toOrdered
      (fun _ _ _ => ⟨rfl, rfl⟩) (fun _ _ _ => ⟨rfl, rfl⟩) entry)⟩
  | constant v => exact ⟨fun _ => (Act.Mute.onData _).trims, .of_avoids (.onData (fun _ => rfl) _)⟩
  | native arity f =>
    have hf : f.Candid := hk
    refine ⟨fun c => ?_, .callNative arity hf.spares⟩
    refine .bind (Act.Mute.onData _).trims fun args =>
        (Act.Trimming.onSurface (hf.trims c args)).bind fun r => ?_
    split
    · exact (Act.Mute.onData _).trims
    · exact .pure ()

namespace Dictionary

open Machine

def Candid (d : Dictionary σ) : Prop := d.All Kind.Candid

variable {d : Dictionary σ} (hd : d.Candid)

include hd

theorem candid_perform (xt : Nat) : Act.Candid (d.perform xt) := by
  unfold perform
  split
  · next e he => exact e.kind.candid_perform (hd xt e he)
  · exact ⟨fun _ => .throw _, .of_avoids (.throw rfl)⟩

theorem candid_step : Act.Candid d.step where
  trims c := by
    refine .of_common fun m _ => ?_
    cases hip : m.ip with
    | none =>
      refine ⟨pure (), d.step_of_none hip, ?_, .pure ()⟩
      rintro _ ⟨-, rfl⟩
      exact d.step_of_none hip
    | some a =>
      refine ⟨_, d.step_of_some hip, ?_, ?_⟩
      · rintro _ ⟨-, rfl⟩
        exact d.step_of_some (m := m.withRoom c) hip
      · exact .bind (Act.Mute.onMemory _).trims fun v =>
            .bind (Act.Mute.trims (.setIp Act.outlying_saying _)) fun _ =>
          .bind (Act.Mute.trims (.count v _)) fun xt => (candid_perform hd xt).trims c
  spares := by
    intro m f m' h hf
    have hs := spared_shallow (σ := σ) |>.toOrdered
    cases hip : m.ip with
    | none => rw [d.step_of_none hip] at h; cases h
    | some a =>
      rw [d.step_of_some hip] at h
      refine Act.Sparing.after (.onMemory (fun _ => rfl) _) (keeps_fetchCell hs a) (fun v => ?_) m f m' h hf
      refine .after (fun _ _ _ h => by cases h) (.modify fun _ => ⟨rfl, rfl⟩) fun _ => ?_
      exact .after (.count v rfl) (keeps_count hs v _) fun xt => (candid_perform hd xt).spares

theorem runFor_trims (n : Nat) : Act.Trimming c (d.runFor n) := by
  induction n with
  | zero => exact .pure ()
  | succ n ih =>
    refine .of_common fun m _ => ?_
    cases hip : m.ip with
    | none =>
      refine ⟨pure (), d.runFor_of_ip_none hip _, ?_, .pure ()⟩
      rintro _ ⟨-, rfl⟩
      exact d.runFor_of_ip_none (m := m.withRoom c) hip _
    | some a =>
      refine ⟨_, d.runFor_succ (by rw [hip]; rfl) n, ?_, .bind ((candid_step hd).trims c) fun _ => ih⟩
      rintro _ ⟨-, rfl⟩
      exact d.runFor_succ (m := m.withRoom c) (show m.ip.isSome = true by rw [hip]; rfl) n

omit hd in
/-- A run that fails has come to the instruction that does. -/
theorem runFor_error {n : Nat} {m m' : Machine σ} {f : Fault} (h : d.runFor n m = .error f m') :
    ∃ k m₁, k ≤ n ∧ d.Steps k m m₁ ∧ d.step m₁ = .error f m' := by
  induction n generalizing m with
  | zero => cases h
  | succ n ih =>
    cases hip : m.ip with
    | none => rw [d.runFor_of_ip_none hip] at h; cases h
    | some a =>
      have hsome : m.ip.isSome = true := by rw [hip]; rfl
      rw [d.runFor_succ hsome] at h
      rcases bind_error_iff.mp h with h | ⟨_, m₁, hstep, h⟩
      · exact ⟨0, m, Nat.zero_le _, .zero m, h⟩
      · obtain ⟨k, m₂, hk, hsteps, hfail⟩ := ih h
        exact ⟨k + 1, m₂, Nat.succ_le_succ hk, .succ hsome hstep hsteps, hfail⟩

/-- With more room, a run takes the same steps. -/
theorem Steps.widen {n : Nat} {m m' : Machine σ} (h : d.Steps n m m') (hc : m.output.capacity ≤ c) :
    d.Steps n (m.withRoom c) (m'.withRoom c) := by
  induction h with
  | zero m => exact .zero _
  | @succ n m m₁ m' hip hstep _ ih =>
    have hrun := ((candid_step hd).trims c).runs m (m.withRoom c) ⟨hc, rfl⟩
    rw [hstep] at hrun
    generalize hr : d.step (m.withRoom c) = r at hrun
    cases hrun with
    | ok hR =>
      obtain ⟨hc₁, rfl⟩ := hR
      exact .succ hip hr (ih hc₁)

end Dictionary

/-! ## Engines -/

def Halt.isOutput : Halt → Bool
  | .fault f => f.isOutput
  | .unfinished => false

theorem Halt.isOutput_iff {e : Halt} : e.isOutput = true ↔ ∃ f, e = .fault (.output f) := by
  rcases e with ⟨f⟩ | -
  · cases f <;> simp [isOutput, Fault.isOutput]
  · simp [isOutput]

namespace Engine

def withRoom (c : Nat) (s : Engine σ) : Engine σ := { s with machine := s.machine.withRoom c }

/-- The other engine has room for `c` bytes of output, which are no fewer, and words that cannot
    tell. -/
structure Widens (c : Nat) (s s' : Engine σ) : Prop where
  candid : s.dict.Candid
  capacity : s.machine.output.capacity ≤ c
  eq : s' = s.withRoom c

/-- What was printed is where the other engine's output begins, which only prints on. -/
structure Precedes (s s' : Engine σ) : Prop where
  candid : s'.dict.Candid
  output : s.machine.output.Precedes s'.machine.output

theorem Widens.precedes {s s' : Engine σ} (h : Widens c s s') : s.Precedes s' := by
  obtain ⟨hd, -, rfl⟩ := h
  exact ⟨hd, List.prefix_refl _⟩

/-- With more room for the output it goes on alike, or is cut short where there is less. -/
abbrev Trimming (c : Nat) (x : Session σ α) : Prop := Trims (Widens c) Precedes Halt.isOutput x

theorem output_recover (s : Engine σ) : s.recover.machine.output = s.machine.output := by
  obtain ⟨dict, machine, mode, budget⟩ := s
  cases mode <;> rfl

theorem candid_recover {s : Engine σ} (h : s.dict.Candid) : s.recover.dict.Candid := by
  obtain ⟨dict, machine, mode, budget⟩ := s
  cases mode with
  | run => exact h
  | compile d => exact Dictionary.All.truncate (P := Kind.Candid) h d.xt

theorem recover_withRoom (c : Nat) (s : Engine σ) : (s.withRoom c).recover = s.recover.withRoom c := by
  obtain ⟨dict, machine, mode, budget⟩ := s
  cases mode <;> rfl

theorem Widens.recover {s s' : Engine σ} (h : Widens c s s') : Widens c s.recover s'.recover where
  candid := candid_recover h.candid
  capacity := by rw [output_recover]; exact h.capacity
  eq := by rw [h.eq, recover_withRoom]

theorem Precedes.recover {s s' : Engine σ} (h : s.Precedes s') : s.recover.Precedes s'.recover where
  candid := candid_recover h.candid
  output := by rw [output_recover, output_recover]; exact h.output

/-- How a run of compiled code that came to an end, or to the end of its steps, ends for the
    engine. -/
def concluded (s : Engine σ) : EStateM.Result Fault (Machine σ) Unit → EStateM.Result Halt (Engine σ) Unit
  | .ok _ m =>
    if m.ip.isSome then .error (overrun s.budget) { s with machine := m } else .ok () { s with machine := m }
  | .error f m => .error (.fault f) { s with machine := m }

theorem runCode_concluded (fuel entry : Nat) (s : Engine σ) :
    runCode fuel entry s = s.concluded (s.dict.runFor (s.budget.getD fuel) (s.launched entry)) := by
  rw [runCode_launched]
  cases s.dict.runFor (s.budget.getD fuel) (s.launched entry) <;> rfl

theorem endState_concluded (s : Engine σ) (r : EStateM.Result Fault (Machine σ) Unit) :
    endState (s.concluded r) = { s with machine := endState r } := by
  cases r with
  | ok _ m =>
    unfold concluded
    dsimp only
    by_cases hip : m.ip.isSome = true
    · rw [if_pos hip]; rfl
    · rw [if_neg hip]; rfl
  | error f m => rfl

theorem Trimmed.concluded {s : Engine σ} (hd : s.dict.Candid) {r r' : EStateM.Result Fault (Machine σ) Unit}
    (h : Trimmed (Machine.Widens c) (fun m m' => m.output.Precedes m'.output) Fault.isOutput r r') :
    Trimmed (Widens c) Precedes Halt.isOutput (s.concluded r) ((s.withRoom c).concluded r') := by
  cases h with
  | @ok _ m m' hR =>
    obtain ⟨hc, rfl⟩ := hR
    by_cases hip : m.ip.isSome = true
    · rw [show s.concluded (.ok () m) = _ from if_pos hip,
        show (s.withRoom c).concluded (.ok () (m.withRoom c)) = _ from if_pos hip]
      exact .error ⟨hd, hc, rfl⟩
    · rw [show s.concluded (.ok () m) = _ from if_neg hip,
        show (s.withRoom c).concluded (.ok () (m.withRoom c)) = _ from if_neg hip]
      exact .ok ⟨hd, hc, rfl⟩
  | error hR =>
    obtain ⟨hc, rfl⟩ := hR
    exact .error ⟨hd, hc, rfl⟩
  | cut hfull hcut =>
    refine .cut hfull ?_
    rw [endState_concluded]
    exact ⟨hd, hcut⟩

namespace Trimming

theorem onMachine {act : Act σ α} (h : Act.Trimming c act) : Trimming c (onMachine act) where
  runs s s' := by
    rintro ⟨hd, hc, rfl⟩
    have hlift (t : Engine σ) :
        Engine.onMachine act t = outside (fun m => { t with machine := m }) .fault (act t.machine) := by
      rw [onMachine_eq]
      cases act t.machine <;> rfl
    rw [hlift, hlift]
    refine (h.runs s.machine (s.machine.withRoom c) ⟨hc, rfl⟩).outside ?_ (fun _ _ h => ⟨hd, h⟩) fun _ h => h
    rintro m _ ⟨hc, rfl⟩
    exact ⟨hd, hc, rfl⟩
  grows s t ht := by
    rw [stateAfter_onMachine]
    exact ⟨ht.candid, h.grows s.machine t.machine ht.output⟩

/-- A change of the dictionary and the mode. -/
theorem modify {f : Engine σ → Engine σ} (hmachine : ∀ s, (f s).machine = s.machine)
    (hroom : ∀ s, f (s.withRoom c) = (f s).withRoom c)
    (hcandid : ∀ s, s.dict.Candid → (f s).dict.Candid) : Trimming c (modify f : Session σ Unit) := by
  refine Trims.modify ?_ fun t s ht => ⟨hcandid s ht.candid, by rw [hmachine]; exact ht.output⟩
  rintro s _ ⟨hd, hc, rfl⟩
  exact ⟨hcandid s hd, by rw [hmachine]; exact hc, hroom s⟩

theorem interpreting : Interpreting (σ := σ) (fun x => Act.Trimming c x) fun x => Trimming c x where
  pure := .pure
  bind := .bind
  here hf := .read (fun s => s.machine.memory.here) (by rintro s _ ⟨-, -, rfl⟩; rfl) hf
  sense word f hf := by
    refine .of_common fun s _ => ?_
    obtain ⟨x, hx, heq⟩ := hf (s.dict.sense? word)
    refine ⟨x, congrFun (heq s rfl) s, ?_, hx⟩
    rintro _ ⟨-, -, rfl⟩
    exact congrFun (heq (s.withRoom c) rfl) _
  fail _ _ := .throw _
  cell a := onMachine (Act.Mute.trims (.cell a))
  bumpCell v := onMachine (Act.Mute.onMemory _).trims
  bumpBytes bytes := onMachine (Act.Mute.onMemory _).trims
  align := onMachine (Act.Mute.onMemory _).trims
  closed := Act.Trimming.closed
  machine := onMachine
  constant name _ :=
    modify (fun _ => rfl) (fun _ => rfl) fun _ hd => Dictionary.All.push (P := Kind.Candid) hd name trivial

theorem compilePhrase (d : Draft) (p : Phrase) : Trimming c (compilePhrase d p : Session σ Unit) := by
  have hcompiling : Compiling (σ := σ) d 0 fun x => Trimming c x :=
    { interpreting.toReading with
      storeCell := fun v _ => onMachine (Act.Mute.onMemory _).trims
      setOpened := fun _ => modify (fun _ => rfl) (fun _ => rfl) fun _ hd => hd }
  refine hcompiling.compileAny (modify (fun _ => rfl) (fun _ => rfl) fun s hd => ?_)
      (fun _ _ => Nat.zero_le _) p
  exact Dictionary.All.reveal (P := Kind.Candid) hd d.xt

theorem openDraft (name : String) : Trimming c (openDraft name : Session σ Unit) := by
  have hi := interpreting (σ := σ) (c := c)
  refine hi.getHere.bind fun mark => hi.align.bind fun _ => hi.getHere.bind fun entry => ?_
  exact modify (fun _ => rfl) (fun _ => rfl) fun _ hd =>
      Dictionary.All.pushHidden (P := Kind.Candid) hd name trivial

theorem runCode (fuel entry : Nat) : Trimming c (runCode fuel entry : Session σ Unit) where
  runs s s' := by
    rintro ⟨hd, hc, rfl⟩
    have hrun := (Dictionary.runFor_trims hd (s.budget.getD fuel)).runs (s.launched entry)
        ((s.launched entry).withRoom c) ⟨hc, rfl⟩
    rw [runCode_concluded, runCode_concluded]
    exact Trimmed.concluded hd hrun
  grows s t ht := by
    rw [stateAfter_runCode]
    exact ⟨ht.candid,
        (Dictionary.runFor_trims (c := 0) ht.candid _).grows (s.launched entry) t.machine ht.output⟩

theorem execute (fuel xt : Nat) : Trimming c (execute fuel xt : Session σ Unit) := by
  refine .of_common fun s hs => ?_
  have hd : s.dict.Candid := by
    rcases hs with ⟨_, h⟩ | ⟨_, h⟩
    · exact h.candid
    · exact h.candid
  rcases execute_cases xt s with ⟨entry, hrun⟩ | hact
  · refine ⟨_, hrun fuel s rfl rfl, ?_, runCode fuel entry⟩
    rintro _ ⟨-, -, rfl⟩
    exact hrun fuel (s.withRoom c) rfl rfl
  · refine ⟨_, hact fuel s rfl rfl, ?_, onMachine ((Dictionary.candid_perform hd xt).trims c)⟩
    rintro _ ⟨-, -, rfl⟩
    exact hact fuel (s.withRoom c) rfl rfl

theorem interpretPhrase (fuel : Nat) (p : Phrase) : Trimming c (interpretPhrase fuel p : Session σ Unit) :=
  interpreting.interpretAny (execute fuel) openDraft p

theorem feed (fuel : Nat) (p : Phrase) : Trimming c (feed fuel p : Session σ Unit) := by
  refine .of_common fun s _ => ?_
  cases hmode : s.mode with
  | run =>
    refine ⟨_, feed_of_run hmode, ?_, interpretPhrase fuel p⟩
    rintro _ ⟨-, -, rfl⟩
    exact feed_of_run (s := s.withRoom c) hmode
  | compile d =>
    refine ⟨_, feed_of_compile hmode, ?_, compilePhrase d p⟩
    rintro _ ⟨-, -, rfl⟩
    exact feed_of_compile (s := s.withRoom c) hmode

theorem feedAll (fuel : Nat) (ps : List Phrase) : Trimming c (feedAll fuel ps : Session σ Unit) := by
  induction ps with
  | nil => exact .pure ()
  | cons p ps ih => exact (feed fuel p).bind fun _ => ih

theorem finish : Trimming c (finish : Session σ Unit) := by
  refine .of_common fun s _ => ?_
  cases hmode : s.mode with
  | run =>
    refine ⟨_, finish_of_run hmode, ?_, .pure ()⟩
    rintro _ ⟨-, -, rfl⟩
    exact finish_of_run (s := s.withRoom c) hmode
  | compile d =>
    refine ⟨_, finish_of_compile hmode, ?_, .throw _⟩
    rintro _ ⟨-, -, rfl⟩
    exact finish_of_compile (s := s.withRoom c) hmode

theorem recovering {act : Session σ α} (h : Trimming c act) : Trimming c (recovering act) where
  runs s s' hR := by
    have hrun := h.runs s s' hR
    rw [recovering_eq, recovering_eq]
    generalize act s = r, act s' = r' at hrun
    cases hrun with
    | ok hR => exact .ok hR
    | error hR => exact .error hR.recover
    | cut hfull hcut =>
      refine .cut hfull ?_
      cases r' with
      | ok a t' => exact ⟨hcut.candid, by rw [output_recover]; exact hcut.output⟩
      | error e t' => exact hcut.recover
  grows s t ht := by
    have hgrows := h.grows s t ht
    unfold stateAfter at hgrows ⊢
    rw [recovering_eq]
    cases hs : act s with
    | ok a u => rw [hs] at hgrows; exact hgrows
    | error e u =>
      rw [hs] at hgrows
      exact ⟨candid_recover hgrows.candid, by rw [output_recover]; exact hgrows.output⟩

theorem interpret (fuel : Nat) (label text : String) :
    Trimming c (interpret fuel label text : Session σ Unit) :=
  recovering ((feedAll fuel _).bind fun _ => finish)

end Trimming

/-! ## Where a text is cut short -/

/-- The machines that reading a phrase comes through: the one it finds, and those of the run that
    it starts. -/
inductive Meets (fuel : Nat) (p : Phrase) (s : Engine σ) : Machine σ → Prop
  | found : Meets fuel p s s.machine
  | running {entry n : Nat} {m : Machine σ} :
    s.called? p = some entry → n ≤ s.budget.getD fuel → s.dict.Steps n (s.launched entry) m → Meets fuel p s m

/-- The engines that reading phrases comes through. -/
inductive Passes (fuel : Nat) : List Phrase → Engine σ → Engine σ → Prop
  | within {p : Phrase} {ps : List Phrase} {s : Engine σ} {m : Machine σ} :
    Meets fuel p s m → Passes fuel (p :: ps) s { s with machine := m }
  | next {p : Phrase} {ps : List Phrase} {s s₁ t : Engine σ} :
    feed fuel p s = .ok () s₁ → Passes fuel ps s₁ t → Passes fuel (p :: ps) s t

variable {s t : Engine σ} {fuel : Nat} {p : Phrase}

theorem Meets.widen {m : Machine σ} (h : Meets fuel p s m) (hd : s.dict.Candid)
    (hc : s.machine.output.capacity ≤ c) : Meets fuel p (s.withRoom c) (m.withRoom c) := by
  cases h with
  | found => exact .found
  | running hcalled hn hsteps =>
    have hcalled' : (s.withRoom c).called? p = s.called? p := by cases p <;> rfl
    exact .running (hcalled'.trans hcalled) hn (Dictionary.Steps.widen hd hsteps hc)

/-- The engine that a phrase leaves that did not fit: one of the machines that reading it comes
    through is cut short. -/
def CutIn (fuel : Nat) (p : Phrase) (s t : Engine σ) : Prop :=
  ∃ m m', Meets fuel p s m ∧ m.CutAt m' ∧ t = { s with machine := m' }

theorem onMachine_cutIn {act : Act σ α} (ha : act.Candid) {e : Halt} (h : onMachine act s = .error e t)
    (he : e.isOutput = true) : s.CutIn fuel p t := by
  obtain ⟨f, m, rfl, hact, rfl⟩ := onMachine_error h
  exact ⟨s.machine, m, .found, ha.cutAt hact he, rfl⟩

theorem runCode_cutIn (hd : s.dict.Candid) {entry : Nat} (hp : s.called? p = some entry) {e : Halt}
    (h : runCode fuel entry s = .error e t) (he : e.isOutput = true) : s.CutIn fuel p t := by
  rw [runCode_concluded] at h
  cases hrun : s.dict.runFor (s.budget.getD fuel) (s.launched entry) with
  | ok _ m =>
    -- A run that is not over has had its steps, which is no matter of the output.
    rw [hrun] at h
    by_cases hip : m.ip.isSome = true
    · rw [show s.concluded (.ok () m) = _ from if_pos hip] at h
      cases h
      cases hb : s.budget <;> rw [hb] at he <;> cases he
    · rw [show s.concluded (.ok () m) = _ from if_neg hip] at h
      cases h
  | error f m =>
    rw [hrun] at h
    cases h
    obtain ⟨k, m₁, hk, hsteps, hstep⟩ := Dictionary.runFor_error hrun
    exact ⟨m₁, m, .running hp hk hsteps, (Dictionary.candid_step hd).cutAt hstep he, rfl⟩

/-- A word runs code outside of a run, or acts on the machine. -/
theorem interpretWord_cases (fuel : Nat) (t : Token) {xt : Nat} (hm : s.mode = .run)
    (h : s.dict.sense? t.text = some (.word xt)) :
    (∃ entry, s.called? (.word t) = some entry ∧ execute fuel xt s = runCode fuel entry s) ∨
      execute fuel xt s = onMachine (s.dict.perform xt) s := by
  cases he : s.dict.get? xt with
  | none =>
    right
    rw [execute, bind_of_ok (get_apply s), bind_of_ok (get_apply s), he]
  | some entry =>
    obtain ⟨name, kind, hidden⟩ := entry
    cases kind with
    | compiled entry =>
      cases hip : s.machine.ip with
      | none =>
        refine .inl ⟨entry, ?_, execute_compiled he rfl hip⟩
        simp only [called?, hm, hip, h, he]
      | some a =>
        right
        rw [execute, bind_of_ok (get_apply s), bind_of_ok (get_apply s), he, hip]
    | builtin | hook | native | constant =>
      right
      rw [execute, bind_of_ok (get_apply s), bind_of_ok (get_apply s), he]

theorem defining_faulting : Defining (fun x => Faulting (σ := σ) x) where
  toReading := (compiling_faulting ⟨"", 0, 0, []⟩).toReading
  pop := faulting_onMachine (.onData (fun _ => rfl) _)
  constant _ _ _ _ _ h := by cases h

/-- Nothing but a word that runs, or a text that is printed, can be cut short. -/
theorem interpretPhrase_cutIn (hd : s.dict.Candid) (hm : s.mode = .run) {e : Halt}
    (h : interpretPhrase fuel p s = .error e t) (he : e.isOutput = true) : s.CutIn fuel p t := by
  have hnot {x : Session σ Unit} (hx : Faulting x) (h : x s = .error e t) : s.CutIn fuel p t := by
    obtain ⟨f, rfl, hf⟩ := hx s e t h
    rw [Halt.isOutput, hf] at he
    cases he
  have hread := defining_faulting (σ := σ)
  cases p with
  | word t =>
    rw [interpretPhrase, bind_of_ok (get_apply s)] at h
    rcases hsense : s.dict.sense? t.text with _ | ⟨xt⟩ | ⟨v⟩ <;> rw [hsense] at h
    · exact hnot (hread.fail _ rfl) h
    · rcases interpretWord_cases fuel t hm hsense with ⟨entry, hcalled, hrun⟩ | hact
      · exact runCode_cutIn hd hcalled (hrun ▸ h) he
      · exact onMachine_cutIn (Dictionary.candid_perform hd xt) (hact ▸ h) he
    · exact hnot (faulting_onMachine (.onData (fun _ => rfl) _)) h
  | control k t => exact hnot (hread.fail _ rfl) h
  | define d t name =>
    by_cases hcolon : d = .colon
    · subst hcolon
      refine hnot (hread.bind (hread.needName t name) fun w => ?_) h
      exact hread.bind hread.getHere fun mark => hread.bind hread.align fun _ =>
          hread.bind hread.getHere fun entry _ _ _ h => by cases h
    · exact hnot (hread.interpretDefiner t name hcolon) h
  | comment closed => exact hnot (hread.pure ()) h
  | text u t body =>
    cases body with
    | none => exact hnot (hread.fail _ rfl) h
    | some text =>
      cases u with
      | print => exact onMachine_cutIn (Act.candid_write text) h he
      | push =>
        have hpush {α : Type} (op : Stack.Op α) :
            Act.Avoids Fault.isOutput (Machine.onData op : Act σ α) := .onData (fun _ => rfl) op
        have hcell (a : Nat) : Act.Avoids Fault.isOutput (Machine.cell a : Act σ Cell) :=
          .cell (fun _ => rfl) a
        refine hnot (hread.bind (hread.bumpBytes _) fun a => faulting_onMachine ?_) h
        exact (hcell a).bind fun _ => (hpush _).bind fun _ => (hcell _).bind fun _ => hpush _

theorem feed_cutIn (hd : s.dict.Candid) {e : Halt} (h : feed fuel p s = .error e t) (he : e.isOutput = true) :
    s.mode = .run ∧ s.CutIn fuel p t := by
  cases hm : s.mode with
  | run =>
    rw [feed_of_run hm] at h
    exact ⟨rfl, interpretPhrase_cutIn hd hm h he⟩
  | compile d =>
    rw [feed_of_compile hm] at h
    obtain ⟨f, rfl, hf⟩ := compilePhrase_faulting d p s e t h
    rw [Halt.isOutput, hf] at he
    cases he

/-- Phrases that are cut short leave what reading them with more room comes through. -/
theorem feedAll_cut {ps : List Phrase} {e : Halt} (hd : s.dict.Candid) (hc : s.machine.output.capacity ≤ c)
    (h : feedAll fuel ps s = .error e t) (he : e.isOutput = true) :
    t.mode = .run ∧ ∃ u, Passes fuel ps (s.withRoom c) u ∧ u.dict = t.dict ∧ u.machine.CutAt t.machine := by
  induction ps generalizing s with
  | nil => cases h
  | cons p ps ih =>
    rcases bind_error_iff.mp h with h | ⟨_, s₁, h₁, h⟩
    · obtain ⟨hm, m, m', hmeets, hcut, rfl⟩ := feed_cutIn hd h he
      exact ⟨hm, _, .within (hmeets.widen hd hc), rfl, hcut.spared, hcut.printed⟩
    · have hrun := (Trimming.feed fuel p).runs s (s.withRoom c) ⟨hd, hc, rfl⟩
      rw [h₁] at hrun
      generalize hwide : feed fuel p (s.withRoom c) = r at hrun
      cases hrun with
      | ok hR =>
        obtain ⟨hd₁, hc₁, rfl⟩ := hR
        obtain ⟨hm, u, hpasses, hu⟩ := ih hd₁ hc₁ h
        exact ⟨hm, u, .next hwide hpasses, hu⟩

theorem finish_faulting : Faulting (finish : Session σ Unit) := by
  intro s e t h
  cases hm : s.mode with
  | run => rw [finish_of_run hm] at h; cases h
  | compile d =>
    rw [finish_of_compile hm] at h
    cases h
    refine ⟨_, rfl, ?_⟩
    unfold Draft.unclosed
    split <;> rfl

theorem interpret_cut {label text : String} {e : Halt} (hd : s.dict.Candid)
    (hc : s.machine.output.capacity ≤ c)
    (h : interpret fuel label text s = .error e t) (he : e.isOutput = true) :
    ∃ u, Passes fuel (Source.ofText label text).phrases (s.withRoom c) u ∧ u.dict = t.dict ∧
    u.machine.CutAt t.machine := by
  rw [interpret, recovering_eq] at h
  split at h <;> cases h
  next t₀ hread =>
  have hfeed : feedAll fuel (Source.ofText label text).phrases s = .error e t₀ := by
    rcases bind_error_iff.mp hread with h | ⟨_, s₁, -, h⟩
    · exact h
    · obtain ⟨f, rfl, hf⟩ := finish_faulting s₁ e t₀ h
      rw [Halt.isOutput, hf] at he
      cases he
  obtain ⟨hm, u, hpasses, hdict, hcut⟩ := feedAll_cut hd hc hfeed he
  have hrecover : t₀.recover = { t₀ with machine := t₀.machine.reset } := by
    rw [recover, discardDraft_of_run hm]
  rw [hrecover]
  exact ⟨u, hpasses, hdict, hcut.spared, hcut.printed⟩

/-- A text that is read with room for `c` bytes of output, where there was less before. If its
    output did fit, it is read just the same. If it did not, what was printed is the beginning of
    what is printed now, and the dictionary, the memory and the host are those of an engine that
    reading it comes through now. -/
theorem cut_output_precedes_full (hd : s.dict.Candid) (hc : s.machine.output.capacity ≤ c) (fuel : Nat)
    (label text : String) :
    ((∀ e t, interpret fuel label text s ≠ .error (.fault (.output e)) t) →
      interpret fuel label text (s.withRoom c) = mapState (·.withRoom c) (interpret fuel label text s)) ∧
    ∀ e t, interpret fuel label text s = .error (.fault (.output e)) t →
      t.printed.toList <+: (stateAfter (interpret fuel label text) (s.withRoom c)).printed.toList ∧
      ∃ u, Passes fuel (Source.ofText label text).phrases (s.withRoom c) u ∧ t.dict = u.dict ∧
        t.machine.memory = u.machine.memory ∧ t.machine.host = u.machine.host ∧
        u.printed.toList <+: t.printed.toList := by
  have hrun := (Trimming.interpret fuel label text).runs s (s.withRoom c) ⟨hd, hc, rfl⟩
  constructor
  · intro hfits
    generalize interpret fuel label text s = r, interpret fuel label text (s.withRoom c) = r' at hrun hfits
    cases hrun with
    | ok hR => rw [hR.eq]; rfl
    | error hR => rw [hR.eq]; rfl
    | cut hfull _ =>
      obtain ⟨f, rfl⟩ := Halt.isOutput_iff.mp hfull
      exact absurd rfl (hfits f _)
  · intro e t h
    obtain ⟨u, hpasses, hdict, hcut⟩ := interpret_cut hd hc h rfl
    refine ⟨?_, u, hpasses, hdict.symm, hcut.spared.1, hcut.spared.2, hcut.printed⟩
    rw [h] at hrun
    have hcut : t.Precedes (stateAfter (interpret fuel label text) (s.withRoom c)) :=
      hrun.cut_of_error fun _ _ hR => hR.precedes
    exact hcut.output

end Engine

/-! ## The recorder's words -/

theorem Native.write_trims (s : String) :
    Trims (Surface.Widens c) (fun t t' : Surface σ => t.output.Precedes t'.output) Fault.isOutput
      (write s) where
  runs t t' := by
    rintro ⟨hc, rfl⟩
    have hlift (u : Surface σ) :
        write s u = outside (fun o => { u with output := o }) .output (Output.write s u.output) := by
      unfold write
      dsimp only
      cases Output.write s u.output <;> rfl
    rw [hlift, hlift]
    refine ((Output.write_trims s).runs t.output (t.output.withRoom c) ⟨hc, rfl⟩).outside ?_
        (fun _ _ h => h) fun _ _ => rfl
    rintro o _ ⟨hc, rfl⟩
    exact ⟨hc, rfl⟩
  grows t u hu := by
    have hgrows := Output.precedes_write s t.output
    unfold stateAfter write
    dsimp only
    cases hw : Output.write s t.output with
    | ok _ o => rw [hw] at hgrows; exact List.IsPrefix.trans hu hgrows
    | error e o => rw [hw] at hgrows; exact List.IsPrefix.trans hu hgrows

theorem Native.host_write {s : String} {t t' : Surface σ} {e : Fault} (h : write s t = .error e t') :
    t'.host = t.host := by
  unfold write at h
  dsimp only at h
  split at h <;> cases h
  rfl

namespace Recorder

theorem words_candid : ∀ w ∈ words, w.2.2.Candid := by
  have hparts := words_induction (P := fun x =>
    (∀ c, Trims (Surface.Widens c) (fun s s' => s.output.Precedes s'.output) Fault.isOutput x) ∧
      ∀ s e s', x s = .error e s' → e.isOutput = true → s'.host = s.host) ?_ ?_ ?_ ?_ ?_
  · intro w hw
    exact ⟨fun c args memory => (hparts w hw args memory).1 c, fun args memory => (hparts w hw args memory).2⟩
  · exact ⟨fun _ => .pure none, fun _ _ _ h => by cases h⟩
  · refine ⟨fun c => ?_, fun _ _ _ h => by cases h⟩
    exact .read (f := fun b => pure (some b)) (fun s : Surface Recorder => s.host.buttons)
        (by rintro s _ ⟨-, rfl⟩; rfl)
      fun b => .pure (some b)
  · refine fun d => ⟨fun c => ⟨?_, fun _ _ h => h⟩, fun _ _ _ h => by cases h⟩
    rintro s _ ⟨hc, rfl⟩
    exact .ok ⟨hc, rfl⟩
  · refine fun text => ⟨fun c => (Native.write_trims text).bind fun _ => .pure none, fun s e s' h _ => ?_⟩
    rcases bind_error_iff.mp h with h | ⟨_, s₁, -, h⟩
    · exact Native.host_write h
    · cases h
  · refine fun e => ⟨fun c => .throw _, fun _ _ _ h he => ?_⟩
    cases h
    cases he

end Recorder

namespace Engine

/-- A console's engine that has room for eight bytes of output. -/
def terse : Engine Recorder := Console.bare { outputBytes := 8 } (.withButtons 0)

/-- Keeps a number, prints another one, and as many blanks. -/
def tellText : String := ": tell , dup . spaces ; 2 7 tell 5 8 tell 1 9 tell"

/-- The output is full in the middle of the second line, after its number was kept. -/
theorem cut_output_precedes_full_tell :
    ∃ t u, interpret 0 "tell" tellText terse = .error (.fault (.output .full)) t ∧ t.printed = "2\n  5\n  " ∧
      t.printed.toList <+: (stateAfter (interpret 0 "tell" tellText) (terse.withRoom 64)).printed.toList ∧
      Passes 0 (Source.ofText "tell" tellText).phrases (terse.withRoom 64) u ∧
      t.machine.memory = u.machine.memory := by
  have hfails : failure? (interpret 0 "tell" tellText) terse = some (.fault (.output .full)) ∧
      (stateAfter (interpret 0 "tell" tellText) terse).printed = "2\n  5\n  " := by decide +kernel
  have hfull := error_of_failure? hfails.1
  have hcandid : terse.dict.Candid :=
    Console.bare_all (P := Kind.Candid) (fun _ => trivial) Recorder.words_candid _ _
  obtain ⟨hpre, u, hpasses, -, hmemory, -⟩ :=
    (cut_output_precedes_full (c := 64) hcandid (by decide) 0 "tell" tellText).2 _ _ hfull
  exact ⟨_, u, hfull, hfails.2, hpre, hpasses, hmemory⟩

end Engine

end Handheld
