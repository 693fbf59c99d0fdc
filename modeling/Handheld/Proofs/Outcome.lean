/-
  Handheld.Proofs.Outcome — how computations with a state and faults end.

  A computation ends with a value or a fault, and with a state either way. The equations here
  run one a step at a time; `bind_ok_iff` and `bind_error_iff` take an ended one apart. What
  every step of a computation does to the state, the whole of it does: `Keeps` says so for a
  relation between the state before and the state after, fault or not.
-/

namespace Handheld

variable {ε S T α β : Type}

/-! ## Running a step -/

@[simp] theorem pure_apply (a : α) (s : S) : (pure a : EStateM ε S α) s = .ok a s := rfl

@[simp] theorem throw_apply (e : ε) (s : S) : (throw e : EStateM ε S α) s = .error e s := rfl

@[simp] theorem get_apply (s : S) : (get : EStateM ε S S) s = .ok s s := rfl

@[simp] theorem modify_apply (f : S → S) (s : S) : (modify f : EStateM ε S Unit) s = .ok () (f s) := rfl

theorem bind_apply (x : EStateM ε S α) (f : α → EStateM ε S β) (s : S) :
    (x >>= f) s = match x s with
      | .ok a s => f a s
      | .error e s => .error e s := rfl

@[simp] theorem bind_of_ok {x : EStateM ε S α} {f : α → EStateM ε S β} {s t : S} {a : α} (h : x s = .ok a t) :
    (x >>= f) s = f a t := by rw [bind_apply, h]

@[simp] theorem bind_of_error {x : EStateM ε S α} {f : α → EStateM ε S β} {s t : S} {e : ε}
    (h : x s = .error e t) :
    (x >>= f) s = .error e t := by rw [bind_apply, h]

theorem discard_eq (x : EStateM ε S α) : discard x = (x >>= fun _ => pure ()) := by
  funext s
  show EStateM.map (fun _ => ()) x s = _
  rw [bind_apply]
  unfold EStateM.map
  cases x s <;> rfl

/-! ## Taking an outcome apart -/

theorem bind_ok_iff {x : EStateM ε S α} {f : α → EStateM ε S β} {s t : S} {b : β} :
    (x >>= f) s = .ok b t ↔ ∃ a r, x s = .ok a r ∧ f a r = .ok b t := by
  rw [bind_apply]
  cases x s <;> simp [and_assoc]

theorem bind_error_iff {x : EStateM ε S α} {f : α → EStateM ε S β} {s t : S} {e : ε} :
    (x >>= f) s = .error e t ↔ x s = .error e t ∨ ∃ a r, x s = .ok a r ∧ f a r = .error e t := by
  rw [bind_apply]
  cases x s <;> simp [and_assoc]

theorem discard_ok_iff {x : EStateM ε S α} {s t : S} : discard x s = .ok () t ↔ ∃ a, x s = .ok a t := by
  rw [discard_eq, bind_ok_iff]
  simp

/-! ## What the state goes through -/

/-- The state a computation leaves, whether it succeeds or fails. -/
def stateAfter (x : EStateM ε S α) (s : S) : S :=
  match x s with
  | .ok _ s => s
  | .error _ s => s

theorem stateAfter_ok {x : EStateM ε S α} {s t : S} {a : α} (h : x s = .ok a t) : stateAfter x s = t := by
  rw [stateAfter, h]

theorem stateAfter_error {x : EStateM ε S α} {s t : S} {e : ε} (h : x s = .error e t) :
    stateAfter x s = t := by
  rw [stateAfter, h]

/-- Whether a computation succeeds. -/
def succeeds (x : EStateM ε S α) (s : S) : Bool :=
  match x s with
  | .ok _ _ => true
  | .error _ _ => false

theorem ok_of_succeeds {x : EStateM ε S Unit} {s : S} (h : succeeds x s = true) :
    x s = .ok () (stateAfter x s) := by
  unfold succeeds at h
  unfold stateAfter
  cases e : x s with
  | ok _ t => rfl
  | error f t => rw [e] at h; cases h

/-- What a computation fails with, if it does. -/
def failure? (x : EStateM ε S α) (s : S) : Option ε :=
  match x s with
  | .ok _ _ => none
  | .error e _ => some e

theorem error_of_failure? {x : EStateM ε S α} {s : S} {e : ε} (h : failure? x s = some e) :
    x s = .error e (stateAfter x s) := by
  unfold failure? at h
  unfold stateAfter
  cases hx : x s with
  | ok a t => rw [hx] at h; cases h
  | error f t => rw [hx] at h; cases h; rfl

theorem stateAfter_bind (x : EStateM ε S α) (f : α → EStateM ε S β) (s : S) :
    stateAfter (x >>= f) s = stateAfter x s ∨ ∃ a, stateAfter (x >>= f) s =
      stateAfter (f a) (stateAfter x s) := by
  unfold stateAfter
  rw [bind_apply]
  rcases x s with ⟨a, t⟩ | ⟨e, t⟩
  · exact .inr ⟨a, rfl⟩
  · exact .inl rfl

/-- The same outcome with another state. -/
def mapState (f : S → T) : EStateM.Result ε S α → EStateM.Result ε T α
  | .ok a s => .ok a (f s)
  | .error e s => .error e (f s)

/-- Whatever the state, the one left is related to it. -/
def Keeps (R : S → S → Prop) (x : EStateM ε S α) : Prop := ∀ s, R s (stateAfter x s)

/-- Reflexive and transitive, as a relation between a state and a later one should be. -/
structure Ordered (R : S → S → Prop) : Prop where
  refl (s : S) : R s s
  trans {a b c : S} : R a b → R b c → R a c

theorem Ordered.same : Ordered (fun s s' : S => s' = s) := ⟨fun _ => rfl, fun h g => g.trans h⟩

namespace Keeps

variable {R : S → S → Prop}

theorem pure (h : Ordered R) (a : α) : Keeps R (pure a : EStateM ε S α) := h.refl

theorem throw (h : Ordered R) (e : ε) : Keeps R (throw e : EStateM ε S α) := h.refl

theorem get (h : Ordered R) : Keeps R (get : EStateM ε S S) := h.refl

theorem modify {f : S → S} (h : ∀ s, R s (f s)) : Keeps R (modify f : EStateM ε S Unit) := h

theorem bind (h : Ordered R) {x : EStateM ε S α} {f : α → EStateM ε S β} (hx : Keeps R x)
    (hf : ∀ a, Keeps R (f a)) : Keeps R (x >>= f) := by
  intro s
  rcases stateAfter_bind x f s with e | ⟨a, e⟩
  · rw [e]; exact hx s
  · rw [e]; exact h.trans (hx s) (hf a _)

theorem discard (h : Ordered R) {x : EStateM ε S α} (hx : Keeps R x) : Keeps R (discard x) := by
  rw [discard_eq]
  exact bind h hx fun _ => pure h ()

theorem of_ok {x : EStateM ε S α} (hx : Keeps R x) {s t : S} {a : α} (e : x s = .ok a t) : R s t := by
  simpa [stateAfter, e] using hx s

theorem of_error {x : EStateM ε S α} (hx : Keeps R x) {s t : S} {e : ε} (h : x s = .error e t) : R s t := by
  simpa [stateAfter, h] using hx s

end Keeps

end Handheld
