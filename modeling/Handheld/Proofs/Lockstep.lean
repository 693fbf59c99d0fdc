/-
  Handheld.Proofs.Lockstep — the same code, run from the top and run inside a call.

  Words that keep aloof of the memory and of the return stack do the same whatever is there
  (`Act.Aloof`). Definitions made of such words and of one another (`Library`) put nothing on
  the return stack but what loops and calls put there. So a run of one of them that a call from
  other code began goes step by step with a run from the top, in any memory that has their code:
  the same cells lie on the two return stacks, upon the call's own cell in the one (`Paired`).
  Each instruction keeps that, or fails the same way in both (`step_alike`), and so does a whole
  run (`run_alike`). Only where the run inside the call finds no room for a cell, the other may
  go on alone.
-/

import Handheld.Proofs.Safety
import Handheld.Proofs.Simulation

namespace Handheld

variable {σ α β : Type}

/-! ## Words that keep aloof -/

namespace Machine

/-- The same machine with another return stack and another memory. -/
def amid (m : Machine σ) (ret : Stack) (memory : Memory) : Machine σ :=
  { m with ret := ret, memory := memory }

variable (m : Machine σ) (s : Stack) (memory : Memory)

@[simp] theorem data_amid : (m.amid s memory).data = m.data := rfl

@[simp] theorem ret_amid : (m.amid s memory).ret = s := rfl

@[simp] theorem memory_amid : (m.amid s memory).memory = memory := rfl

@[simp] theorem output_amid : (m.amid s memory).output = m.output := rfl

@[simp] theorem host_amid : (m.amid s memory).host = m.host := rfl

end Machine

namespace Act

open Machine

/-- It acts the same whatever is on the return stack and in the memory, and leaves them. -/
def Aloof (x : Act σ α) : Prop := ∀ m ret memory, x (m.amid ret memory) = mapState (·.amid ret memory) (x m)

namespace Aloof

theorem iff_commutes {x : Act σ α} : Aloof x ↔ Commutes (fun (p : Stack × Memory) m => m.amid p.1 p.2) x :=
  ⟨fun h p m => h m p.1 p.2, fun h m ret memory => h (ret, memory) m⟩

theorem pure (a : α) : Aloof (Pure.pure a : Act σ α) := fun _ _ _ => rfl

theorem throw (f : Fault) : Aloof (throw f : Act σ α) := fun _ _ _ => rfl

theorem bind {x : Act σ α} {f : α → Act σ β} (hx : Aloof x) (hf : ∀ a, Aloof (f a)) : Aloof (x >>= f) :=
  iff_commutes.mpr (.bind (iff_commutes.mp hx) fun a => iff_commutes.mp (hf a))

theorem onData (op : Stack.Op α) : Aloof (onData op : Act σ α) :=
  iff_commutes.mpr (.onData (fun _ _ _ => rfl) op)

theorem onOutput (op : Output.Op α) : Aloof (onOutput op : Act σ α) :=
  iff_commutes.mpr (.onOutput (fun _ _ _ => rfl) op)

theorem cell (a : Nat) : Aloof (cell a : Act σ Cell) := iff_commutes.mpr (.cell a)

theorem count (v : Cell) (f : Fault) : Aloof (count v f : Act σ Nat) := iff_commutes.mpr (.count v f)

theorem core : Act.Core (fun x => Aloof (σ := σ) x) where
  pure := pure
  bind := bind
  divideByZero := throw _
  push _ := onData _
  pop := onData _
  peek := onData _
  peekUnder _ := onData _
  cell := cell
  count v := count v _
  write _ := onOutput _
  writeBytes _ := onOutput _
  print _ := onOutput _
  depth hf m ret memory := hf m.data.depth m ret memory

/-- A native word that does not read the memory. -/
theorem callNative (arity : Nat) {f : Native σ} (hf : ∀ args m m', f args m = f args m') :
    Aloof (callNative arity f) := by
  have hsurface (args : List Cell) : Aloof (onSurface (f args)) := by
    intro m ret memory
    rw [onSurface_eq, onSurface_eq, memory_amid, output_amid, host_amid, hf args memory m.memory]
    cases f args m.memory ⟨m.host, m.output⟩ <;> rfl
  refine bind (onData _) fun args => bind (hsurface args) fun r => ?_
  split
  · exact onData _
  · exact pure ()

theorem of_ok {x : Act σ α} (hx : Aloof x) {m m' : Machine σ} {a : α} (h : x m = .ok a m') :
    m'.ret = m.ret ∧ m'.memory = m.memory := by
  have hsame := hx m m.ret m.memory
  rw [show m.amid m.ret m.memory = m from rfl, h] at hsame
  injection hsame with _ hm
  rw [hm]
  exact ⟨rfl, rfl⟩

end Aloof

end Act

/-- A word that acts on its own and keeps aloof of the memory and of the return stack. -/
def Kind.Aloof : Kind σ → Prop
  | .builtin p => p.isAloof = true
  | .native _ f => ∀ args m m', f args m = f args m'
  | .constant _ => True
  | .hook _ | .compiled _ => False

namespace Kind.Aloof

variable {k : Kind σ}

theorem perform (h : k.Aloof) : Act.Aloof k.perform := by
  cases k with
  | builtin p => exact Act.Aloof.core.run h
  | native arity f => exact .callNative arity h
  | constant v => exact .onData _
  | hook | compiled => cases h

theorem isOrdinary (h : k.Aloof) : k.isOrdinary = true := by
  cases k with
  | builtin p =>
    rw [Kind.isOrdinary, Primitive.isControl_of_isAloof h]
    rfl
  | native | constant => rfl
  | hook | compiled => cases h

theorem isTame (h : k.Aloof) : k.isTame = true := by
  cases k with
  | builtin p =>
    rw [Kind.isTame, Primitive.isControl_of_isAloof h, Primitive.movesReturn_of_isAloof h]
    rfl
  | native | constant => rfl
  | hook | compiled => cases h

end Kind.Aloof

/-- What is decided of a word: whether one of the host keeps aloof is not. -/
def Kind.isAloof : Kind σ → Bool
  | .builtin p => p.isAloof
  | .constant _ => true
  | .native _ _ | .hook _ | .compiled _ => false

theorem Kind.aloof_of_isAloof {k : Kind σ} (h : k.isAloof = true) : k.Aloof := by
  cases k with
  | builtin p => exact h
  | constant v => trivial
  | native | hook | compiled => cases h

/-! ## Definitions made of such words -/

/-- The word keeps aloof, or is compiled code of one of the definitions. -/
def Dictionary.Admits (d : Dictionary σ) (defs : List Code) (xt : Nat) : Prop :=
  ∃ e, d.get? xt = some e ∧ (e.kind.Aloof ∨ ∃ c ∈ defs, e.kind = .compiled c.entry)

theorem Dictionary.Admits.later {d d' : Dictionary σ} {defs defs' : List Code} {xt : Nat}
    (h : d.Admits defs xt) (he : d.Extends d') (hsub : defs ⊆ defs') : d'.Admits defs' xt := by
  obtain ⟨e, hget, hk⟩ := h
  exact ⟨e, he.get? hget, hk.imp_right fun ⟨c, hc, hk⟩ => ⟨c, hsub hc, hk⟩⟩

theorem Dictionary.admits_of_isAloof {d : Dictionary σ} {xt : Nat}
    (h : (d.get? xt).any (·.kind.isAloof) = true) (defs : List Code) : d.Admits defs xt := by
  obtain ⟨e, he, hk⟩ := (Option.any_eq_true ..).mp h
  exact ⟨e, he, .inl (Kind.aloof_of_isAloof hk)⟩

/-- What the definitions may be made of: such words, literals, strings that are printed, and
    returns outside of loops. -/
def Body.Aloof (d : Dictionary σ) (defs : List Code) : Nat → Body → Prop
  | _, .word xt => d.Admits defs xt
  | _, .string u _ => u = .print
  | loops, .exit => loops = 0
  | _, _ => True

def Instr.Aloof (d : Dictionary σ) (defs : List Code) : Instr → Prop
  | .word xt => d.Admits defs xt
  | .string u _ => u = .print
  | _ => True

namespace Body

variable {d d' : Dictionary σ} {defs defs' : List Code} {loops : Nat} {b : Body}

theorem Aloof.tame (h : b.Aloof d defs loops) : b.Tame d loops := by
  cases b with
  | word xt =>
    obtain ⟨e, he, hk | ⟨c, -, hk⟩⟩ := h
    · exact ⟨e, he, hk.isTame⟩
    · exact ⟨e, he, by rw [hk]; rfl⟩
  | exit => exact h
  | _ => trivial

theorem Aloof.later (h : b.Aloof d defs loops) (he : d.Extends d') (hsub : defs ⊆ defs') :
    b.Aloof d' defs' loops := by
  cases b with
  | word xt => exact Dictionary.Admits.later h he hsub
  | _ => exact h

theorem aloof_sites {xt a : Nat} (hxt : d.Admits defs xt) (h : b.Each (Aloof d defs) loops) :
    ∀ s ∈ b.sites xt a loops, s.instr.Aloof d defs := by
  induction b generalizing a loops with
  | empty => simp [sites]
  | word | string => exact List.forall_mem_cons.mpr ⟨h, by simp⟩
  | recurse => exact List.forall_mem_cons.mpr ⟨hxt, by simp⟩
  | literal | exit => exact List.forall_mem_cons.mpr ⟨trivial, by simp⟩
  | seq b c ihb ihc =>
    simp only [sites, List.forall_mem_append]
    exact ⟨ihb h.1, ihc h.2⟩
  | ifThen yes ih =>
    simp only [sites, List.forall_mem_cons]
    exact ⟨trivial, ih h⟩
  | ifElse yes no ihy ihn =>
    simp only [sites, List.forall_mem_cons, List.forall_mem_append]
    exact ⟨trivial, ihy h.1, trivial, ihn h.2⟩
  | beginUntil body ih | beginAgain body ih =>
    simp only [sites, List.forall_mem_append, List.forall_mem_cons]
    exact ⟨ih h, trivial, by simp⟩
  | beginWhile test body iht ih =>
    simp only [sites, List.forall_mem_append, List.forall_mem_cons]
    exact ⟨iht h.1, trivial, ih h.2, trivial, by simp⟩
  | doLoop body ih | doPlusLoop body ih =>
    simp only [sites, List.forall_mem_append, List.forall_mem_cons]
    exact ⟨trivial, ih h, trivial, by simp⟩

end Body

/-- A completed definition that is made of words that keep aloof and of the definitions. -/
structure Code.Aloof (d : Dictionary σ) (defs : List Code) (c : Code) : Prop where
  token : ∃ e, d.get? c.xt = some e ∧ e.kind = .compiled c.entry
  aligned : 4 ∣ c.entry
  fits : c.body.Each (Body.Fits c.xt) 0
  body : c.body.Each (Body.Aloof d defs) 0

section

variable {d d' : Dictionary σ} {defs defs' : List Code} {c : Code}

theorem Code.Aloof.sound (h : c.Aloof d defs) : c.Sound d :=
  ⟨h.token, h.aligned, h.fits, h.body.imp fun _ _ hb => hb.tame⟩

theorem Code.Aloof.later (h : c.Aloof d defs) (he : d.Extends d') (hsub : defs ⊆ defs') : c.Aloof d' defs' :=
  { h with
    token := h.token.imp fun _ ht => ⟨he.get? ht.1, ht.2⟩
    body := h.body.imp fun _ _ hb => hb.later he hsub }

theorem Code.Aloof.instr (h : c.Aloof d defs) (hc : c ∈ defs) {s : Site} (hs : s ∈ c.sites) :
    s.instr.Aloof d defs := by
  obtain ⟨e, he, hk⟩ := h.token
  have hwhole : c.whole.Each (Body.Aloof d defs) 0 := ⟨h.body, rfl⟩
  exact Body.aloof_sites ⟨e, he, .inr ⟨c, hc, hk⟩⟩ hwhole s hs

end

/-- Definitions that are made of words that keep aloof and of one another, with their code where
    it was laid down. -/
structure Dictionary.Library (d : Dictionary σ) (defs : List Code) (m : Memory) : Prop where
  aloof : ∀ c ∈ defs, c.Aloof d defs
  carries : ∀ c ∈ defs, m.Carries c.entry c.bytes

namespace Dictionary.Library

variable {d d' : Dictionary σ} {defs : List Code} {m m' : Memory}

theorem later (h : d.Library defs m) (he : d.Extends d') (hg : m.Grows m') : d'.Library defs m' where
  aloof c hc := (h.aloof c hc).later he (List.Subset.refl _)
  carries c hc := (h.carries c hc).grows hg

theorem le_maxNat (h : d.Library defs m) {a loops : Nat} (hp : Point defs a loops) : a ≤ Cell.maxNat := by
  obtain ⟨c, hc, s, hs, rfl, -⟩ := hp
  have hin := ((h.carries c hc).part (c.stands hs)).2
  have := (h.carries c hc).valid.here_le_maxNat
  omega

end Dictionary.Library

/-- A definition made of words that keep aloof and of a library is one more of that library. -/
theorem Engine.Defined.library {s s' : Engine σ} {w : String} {b : Body} {defs : List Code}
    (hd : s.Defined w b s')
    (hl : s.dict.Library defs s.machine.memory) (hb : b.Each (Body.Aloof s.dict defs) 0) :
    s'.dict.Library (defs ++ [s.coding b]) s'.machine.memory := by
  have hsub : defs ⊆ defs ++ [s.coding b] := List.subset_append_left _ _
  constructor
  · intro c hc
    rcases List.mem_append.mp hc with hold | hnew
    · exact (hl.aloof c hold).later hd.extends hsub
    · cases List.mem_singleton.mp hnew
      exact ⟨⟨_, hd.token, rfl⟩, Memory.dvd_aligned _, hd.fits, hb.imp fun _ _ hb => hb.later hd.extends hsub⟩
  · intro c hc
    rcases List.mem_append.mp hc with hold | hnew
    · exact (hl.carries c hold).grows hd.memory
    · cases List.mem_singleton.mp hnew
      exact hd.carries

/-! ## Two return stacks -/

namespace Stack

/-- A stack of the same kind and size with at least as many cells on it. -/
structure Fuller (s t : Stack) : Prop where
  kind : t.kind = s.kind
  capacity : t.capacity = s.capacity
  depth : s.depth ≤ t.depth

theorem Fuller.pushed {s t : Stack} (h : s.Fuller t) (v w : Cell) : (s.pushed v).Fuller (t.pushed w) := by
  refine ⟨h.kind, h.capacity, ?_⟩
  rw [depth_pushed, depth_pushed]
  exact Nat.succ_le_succ h.depth

theorem fuller_pushed (s : Stack) (v : Cell) : s.Fuller (s.pushed v) := by
  refine ⟨rfl, rfl, ?_⟩
  rw [depth_pushed]
  exact Nat.le_succ _

end Stack

/-- What lies on two return stacks at an instruction in that many loops, where one run found
    `low` there and the other `high`: the same cells for the loops and for the calls. -/
inductive Paired (defs : List Code) (low high : Stack) : Nat → Stack → Stack → Prop
  | bottom : Paired defs low high 0 low high
  | loop {loops : Nat} {s t : Stack} (limit index : Cell) : Paired defs low high loops s t →
      Paired defs low high (loops + 1) ((s.pushed limit).pushed index) ((t.pushed limit).pushed index)
  | call {loops a : Nat} {s t : Stack} : Paired defs low high loops s t → Point defs a loops →
      Paired defs low high 0 (s.pushed (Int32.ofNat a)) (t.pushed (Int32.ofNat a))

namespace Paired

variable {defs : List Code} {low high s t : Stack} {loops : Nat}

theorem low_depth_le (h : Paired defs low high loops s t) : low.depth ≤ s.depth := by
  induction h with
  | bottom => exact Nat.le_refl _
  | loop limit index _ ih => simp only [Stack.depth_pushed]; omega
  | call _ _ ih => simp only [Stack.depth_pushed]; omega

theorem fuller (h : Paired defs low high loops s t) (hf : low.Fuller high) : s.Fuller t := by
  induction h with
  | bottom => exact hf
  | loop limit index _ ih => exact (ih.pushed limit limit).pushed index index
  | call _ _ ih => exact ih.pushed _ _

theorem kind (h : Paired defs low high loops s t) : t.kind = high.kind := by
  induction h with
  | bottom => rfl
  | loop limit index _ ih => exact ih
  | call _ _ ih => exact ih

end Paired

/-! ## Acts on two machines -/

/-- How an act ends on two machines whose return stack and memory differ, the second memory
    being `memory'`: with the same value, and stacks of which `Q` holds; with the same fault; or
    the second return stack is full. -/
inductive Matched (full : Fault) (memory memory' : Memory) (Q : α → Stack → Stack → Prop) :
    EStateM.Result Fault (Machine σ) α → EStateM.Result Fault (Machine σ) α → Prop
  | ok {a : α} {m : Machine σ} {t : Stack} : m.memory = memory → Q a m.ret t →
      Matched full memory memory' Q (.ok a m) (.ok a (m.amid t memory'))
  | error {f : Fault} {m m' : Machine σ} : m'.output = m.output → m'.host = m.host →
      Matched full memory memory' Q (.error f m) (.error f m')
  | overflow {r : EStateM.Result Fault (Machine σ) α} {m' : Machine σ} :
      Matched full memory memory' Q r (.error full m')

/-- From the return stacks `s` and `t` the act ends as `Matched` says. -/
def Act.Matches (full : Fault) (s t : Stack) (x : Act σ α) (Q : α → Stack → Stack → Prop) : Prop :=
  ∀ (m : Machine σ) (memory' : Memory),
      m.ret = s → Matched full m.memory memory' Q (x m) (x (m.amid t memory'))

namespace Act.Matches

open Machine

variable {full : Fault} {s t : Stack} {Q : α → Stack → Stack → Prop} {R : β → Stack → Stack → Prop}

theorem bind {x : Act σ α} {f : α → Act σ β} (hx : Matches full s t x Q)
    (hf : ∀ a s' t', Q a s' t' → Matches full s' t' (f a) R) : Matches full s t (x >>= f) R := by
  intro m memory' hret
  have h := hx m memory' hret
  rw [bind_apply, bind_apply]
  generalize x m = r at h
  generalize x (m.amid t memory') = r' at h
  cases h with
  | ok hm hq =>
    rw [← hm]
    exact hf _ _ _ hq _ memory' rfl
  | error ho hh => exact .error ho hh
  | overflow => exact .overflow

/-- An act after another of which the outcome is known. -/
theorem andThen {x : Act σ α} {f : α → Act σ β} {v : α} {s' t' : Stack}
    (hx : Matches full s t x fun a u w => a = v ∧ u = s' ∧ w = t') (hf : Matches full s' t' (f v) R) :
    Matches full s t (x >>= f) R := by
  refine hx.bind ?_
  rintro _ _ _ ⟨rfl, rfl, rfl⟩
  exact hf

theorem pure {a : α} (hq : Q a s t) : Matches (σ := σ) full s t (Pure.pure a) Q := by
  intro m memory' hret
  exact .ok rfl (by rw [hret]; exact hq)

theorem of_aloof {x : Act σ α} (hx : Aloof x) (hq : ∀ a, Q a s t) : Matches full s t x Q := by
  intro m memory' hret
  rw [hx]
  rcases e : x m with ⟨a, m'⟩ | ⟨f, m'⟩
  · obtain ⟨hr, hm⟩ := hx.of_ok e
    exact .ok hm (by rw [hr, hret]; exact hq a)
  · exact .error rfl rfl

theorem rpush {Q : Unit → Stack → Stack → Prop} (hf : s.Fuller t)
    (hfull : full = .stack (.overflow t.kind)) {v : Cell}
    (hq : Q () (s.pushed v) (t.pushed v)) : Matches (σ := σ) full s t (rpush v) Q := by
  intro m memory' hret
  subst hfull
  rw [Machine.rpush, onReturn_eq, onReturn_eq, ret_amid]
  rcases Nat.lt_or_ge t.depth t.capacity with hroom | hroom
  · have hlow : m.ret.depth < m.ret.capacity := by
      rw [hret, ← hf.capacity]
      exact Nat.lt_of_le_of_lt hf.depth hroom
    rw [Stack.push_of_lt hroom, Stack.push_of_lt hlow]
    refine .ok (m := { m with ret := m.ret.pushed v }) rfl ?_
    rw [hret]
    exact hq
  · rw [Stack.push_of_le hroom]
    exact .overflow

theorem rpop {v : Cell} {Q : Cell → Stack → Stack → Prop} (hq : Q v s t) :
    Matches (σ := σ) full (s.pushed v) (t.pushed v) rpop Q := by
  intro m memory' hret
  rw [rpop_pushed hret, rpop_pushed (m := m.amid (t.pushed v) memory') rfl]
  exact .ok (m := { m with ret := s }) rfl hq

theorem rpeek {v : Cell} {Q : Cell → Stack → Stack → Prop} (hq : Q v (s.pushed v) (t.pushed v)) :
    Matches (σ := σ) full (s.pushed v) (t.pushed v) rpeek Q := by
  intro m memory' hret
  rw [rpeek_pushed hret, rpeek_pushed (m := m.amid (t.pushed v) memory') rfl]
  exact .ok rfl (by rw [hret]; exact hq)

end Act.Matches

namespace Primitive

open Machine

variable {full : Fault} {s t : Stack} (hf : s.Fuller t) (hfull : full = .stack (.overflow t.kind))

include hf hfull

theorem matches_enterLoop {Q : Unit → Stack → Stack → Prop}
    (hq : ∀ limit index, Q () ((s.pushed limit).pushed index) ((t.pushed limit).pushed index)) :
    Act.Matches (σ := σ) full s t enterLoop.run Q := by
  have hpop : Act.Matches (σ := σ) full s t pop fun _ u w => u = s ∧ w = t :=
    .of_aloof (.onData _) fun _ => ⟨rfl, rfl⟩
  refine hpop.bind ?_
  rintro start _ _ ⟨rfl, rfl⟩
  refine hpop.bind ?_
  rintro limit _ _ ⟨rfl, rfl⟩
  exact (Act.Matches.rpush hf hfull ⟨rfl, rfl, rfl⟩).andThen
      (.rpush (hf.pushed limit limit) hfull (hq limit start))

/-- At the end of a loop both take its cells away, or both move its index. -/
theorem matches_advance {Q : Bool → Stack → Stack → Prop} {limit index : Cell} (step : Cell)
    (hmore : ∀ i, Q true ((s.pushed limit).pushed i) ((t.pushed limit).pushed i)) (hdone : Q false s t) :
    Act.Matches (σ := σ) full ((s.pushed limit).pushed index) ((t.pushed limit).pushed index)
      (advance step) Q := by
  refine (Act.Matches.rpop ⟨rfl, rfl, rfl⟩).andThen ((Act.Matches.rpeek ⟨rfl, rfl, rfl⟩).andThen ?_)
  split
  · rw [discard_eq, bind_assoc]
    exact (Act.Matches.rpop ⟨rfl, rfl, rfl⟩).andThen (.pure hdone)
  · exact (Act.Matches.rpush (hf.pushed limit limit) hfull ⟨rfl, rfl, rfl⟩).andThen (.pure (hmore _))

end Primitive

/-- Whatever a branch decides, both machines go to the same place with stacks that are paired. -/
theorem Paired.decides {defs : List Code} {low high s t : Stack} {full : Fault} {p : Primitive}
    {target a loops : Nat} (hst : Paired defs low high loops s t) (hlow : low.Fuller high)
    (hfull : full = .stack (.overflow high.kind))
    (hp : p.isBranch = true) (hflow : (Instr.branch p target).Flows (Point defs) a loops) :
    Act.Matches (σ := σ) full s t p.decides fun taken s' t' =>
      ∃ loops', Point defs (if taken then target else a + 8) loops' ∧ Paired defs low high loops' s' t' := by
  have hpop : Act.Matches (σ := σ) full s t Machine.pop fun _ u w => u = s ∧ w = t :=
    .of_aloof (.onData _) fun _ => ⟨rfl, rfl⟩
  have hloop (step : Cell) (hflow : ∃ outer, loops = outer + 1 ∧ Point defs target loops ∧
      Point defs (a + 8) outer) :
      Act.Matches (σ := σ) full s t (Primitive.advance step) fun taken s' t' =>
        ∃ loops', Point defs (if taken then target else a + 8) loops' ∧
            Paired defs low high loops' s' t' := by
    obtain ⟨outer, rfl, htarget, hafter⟩ := hflow
    -- With a loop around the branch, the two cells on top can only be that loop's.
    cases hst with
    | loop limit index hst =>
      rw [← hst.kind] at hfull
      exact Primitive.matches_advance (hst.fuller hlow) hfull step
        (fun i => ⟨outer + 1, htarget, .loop limit i hst⟩) ⟨outer, hafter, hst⟩
  cases p <;> cases hp
  case jump => exact .pure ⟨loops, hflow, hst⟩
  case jumpIfZero =>
    refine hpop.bind ?_
    rintro v _ _ ⟨rfl, rfl⟩
    refine .pure ⟨loops, ?_, hst⟩
    split
    · exact hflow.1
    · exact hflow.2
  case loop => exact hloop 1 hflow
  case plusLoop =>
    refine hpop.bind ?_
    rintro v _ _ ⟨rfl, rfl⟩
    exact hloop v hflow

/-! ## Printed strings -/

/-- A string that stands in memory is printed as the text it is. -/
theorem StringUse.print_act {m : Machine σ} {a : Nat} {text : String}
    (hin : a + (Text.utf8 text).length ≤ m.memory.capacity) (hh : m.memory.Holds a (Text.utf8 text)) :
    (StringUse.print.act a (Text.utf8 text).length : Act σ Unit) m = Machine.write text m := by
  have hfetch :
      Machine.onMemory (Memory.fetchBytes a (Text.utf8 text).length) m = .ok (Text.utf8 text) m := by
    rw [Machine.onMemory_eq, Memory.fetchBytes_eq, if_pos (Memory.inBounds_iff.mpr hin), hh]
  show Primitive.printBytes a (Text.utf8 text).length m = _
  rw [Primitive.printBytes_eq, bind_of_ok hfetch, Output.writeBytes, Text.ofUtf8_utf8]
  rfl

theorem Dictionary.step_print {d : Dictionary σ} {m : Machine σ} {lo a base : Nat} {code : List UInt8}
    (hc : m.memory.Carries lo code) (hd : d.Rooted) (text : String) (ha : 4 ∣ a)
    (hs : Stands lo code a (Instr.string .print text).bytes) :
    d.step (m.placed (some a) base) =
      mapState (·.placed (some (a + (Instr.string .print text).size)) base) (Machine.write text m) := by
  have hdata : Stands lo code (a + 4 + 4) (Text.utf8 text ++ _) := hs.right.right
  obtain ⟨hholds, hin⟩ := hc.part hdata.left
  rw [step_string hc hd .print text ha hs, StringUse.print_act (Nat.le_trans hin hc.valid.here_le) hholds]

/-! ## One step -/

/-- How a step ends in a run from the top, with `low` below it on the return stack, and in one
    that a call began which returns to `back`: both go on at the same instruction; the first run
    is over and the second is back at the caller; both fail with the same fault; or the second
    has no room on the return stack. -/
inductive Alike (defs : List Code) (low : Stack) (back : Nat) (memory memory' : Memory) :
    EStateM.Result Fault (Machine σ) Unit → EStateM.Result Fault (Machine σ) Unit → Prop
  | goes {m : Machine σ} {t : Stack} {a loops : Nat} : m.memory = memory → Point defs a loops →
      Paired defs low (low.pushed (Int32.ofNat back)) loops m.ret t →
      Alike defs low back memory memory' (.ok () (m.placed (some a) low.depth))
        (.ok () ((m.amid t memory').placed (some a) low.depth))
  | returns {m : Machine σ} : m.memory = memory → m.ret = low →
      Alike defs low back memory memory' (.ok () (m.placed none low.depth))
        (.ok () ((m.amid low memory').placed (some back) low.depth))
  | fails {f : Fault} {m m' : Machine σ} : m'.output = m.output → m'.host = m.host →
      Alike defs low back memory memory' (.error f m) (.error f m')
  | overflows {r : EStateM.Result Fault (Machine σ) Unit} {m' : Machine σ} :
      Alike defs low back memory memory' r (.error (.stack (.overflow low.kind)) m')

namespace Alike

variable {d d' : Dictionary σ} {defs : List Code} {low t : Stack} {back : Nat} {m : Machine σ}
    {memory' : Memory}

/-- An act that ends alike on both machines, on the way to one instruction. -/
theorem of_matches {x : Act σ Unit} {next loops : Nat} (hpoint : Point defs next loops)
    (hx : Act.Matches (.stack (.overflow low.kind)) m.ret t x fun _ s' t' =>
      Paired defs low (low.pushed (Int32.ofNat back)) loops s' t') :
    Alike defs low back m.memory memory' (mapState (·.placed (some next) low.depth) (x m))
      (mapState (·.placed (some next) low.depth) (x (m.amid t memory'))) := by
  have h := hx m memory' rfl
  generalize x m = r at h
  generalize x (m.amid t memory') = r' at h
  cases h with
  | ok hm hst => exact .goes hm hpoint hst
  | error ho hh => exact .fails ho hh
  | overflow => exact .overflows

theorem of_aloof {x : Act σ Unit} {next loops : Nat} (hx : Act.Aloof x) (hpoint : Point defs next loops)
    (hst : Paired defs low (low.pushed (Int32.ofNat back)) loops m.ret t) :
    Alike defs low back m.memory memory' (mapState (·.placed (some next) low.depth) (x m))
      (mapState (·.placed (some next) low.depth) (x (m.amid t memory'))) :=
  of_matches hpoint (.of_aloof hx fun _ => hst)

variable {lo a loops : Nat} {code : List UInt8} (hcode : m.memory.Carries lo code)
    (hcode' : memory'.Carries lo code)
  (hst : Paired defs low (low.pushed (Int32.ofNat back)) loops m.ret t)

include hcode hcode' hst

theorem call {xt : Nat} {e : Entry σ} {c : Code} (hx : xt ≤ Cell.maxNat) (he : d.get? xt = some e)
    (he' : d'.get? xt = some e) (hc : c ∈ defs) (hk : e.kind = .compiled c.entry)
    (hs : Stands lo code a (Instr.word xt).bytes) (hnext : Point defs (a + 4) loops)
    (hmax : a + 4 ≤ Cell.maxNat) :
    Alike defs low back m.memory memory' (d.step (m.placed (some a) low.depth))
      (d'.step ((m.amid t memory').placed (some a) low.depth)) := by
  have hfuller := hst.fuller (low.fuller_pushed _)
  have hkind : t.kind = low.kind := hst.kind
  rw [Dictionary.step_at hcode hx hs he, Dictionary.step_at (m := m.amid t memory') hcode' hx hs he', hk]
  show Alike defs low back m.memory memory' (Machine.call c.entry _) (Machine.call c.entry _)
  rcases Nat.lt_or_ge t.depth t.capacity with hroom | hroom
  · have hlow : m.ret.depth < m.ret.capacity := by
      rw [← hfuller.capacity]
      exact Nat.lt_of_le_of_lt hfuller.depth hroom
    have hentry : Point defs c.entry 0 := c.enters fun s hs => ⟨c, hc, s, hs, rfl, rfl⟩
    rw [Machine.call_of_lt m c.entry low.depth hmax hlow,
      Machine.call_of_lt (m.amid t memory') c.entry low.depth hmax hroom]
    exact .goes (m := { m with ret := m.ret.pushed (Int32.ofNat (a + 4)) }) rfl hentry (.call hst hnext)
  · rw [Machine.call_of_le (m.amid t memory') c.entry low.depth hmax hroom, Machine.ret_amid, hkind]
    exact .overflows

variable (hd : d.Rooted) (hd' : d'.Rooted)

include hd hd'

theorem enterLoop (hs : Stands lo code a (Instr.plain .enterLoop).bytes)
    (hnext : Point defs (a + 4) (loops + 1)) :
    Alike defs low back m.memory memory' (d.step (m.placed (some a) low.depth))
      (d'.step ((m.amid t memory').placed (some a) low.depth)) := by
  rw [Dictionary.step_enterLoop hcode hd hs, Dictionary.step_enterLoop (m := m.amid t memory') hcode' hd' hs]
  have hfull : Fault.stack (.overflow low.kind) = .stack (.overflow t.kind) := by rw [hst.kind]; rfl
  exact of_matches hnext
      (Primitive.matches_enterLoop (hst.fuller (low.fuller_pushed _)) hfull fun limit index =>
    .loop limit index hst)

theorem branch {p : Primitive} {target : Nat} (hp : p.isBranch = true) (ht : target ≤ Cell.maxNat)
    (hs : Stands lo code a (Instr.branch p target).bytes)
    (hflow : (Instr.branch p target).Flows (Point defs) a loops) :
    Alike defs low back m.memory memory' (d.step (m.placed (some a) low.depth))
      (d'.step ((m.amid t memory').placed (some a) low.depth)) := by
  have h := hst.decides (low.fuller_pushed _) rfl hp hflow m memory' rfl
  generalize e : p.decides m = r at h
  generalize e' : p.decides (m.amid t memory') = r' at h
  cases h with
  | ok hm hq =>
    obtain ⟨loops', hpoint, hst'⟩ := hq
    rw [(Dictionary.step_branch hcode hd hp ht hs).1 _ _ e,
      (Dictionary.step_branch hcode' hd' hp ht hs).1 _ _ e']
    exact .goes hm hpoint hst'
  | error ho hh =>
    obtain ⟨ip, hfail⟩ :
        ∃ ip, d.step (m.placed (some a) low.depth) = .error _ (Machine.placed _ ip low.depth) :=
      (Dictionary.step_branch hcode hd hp ht hs).2 _ _ e
    obtain ⟨ip', hfail'⟩ : ∃ ip, d'.step ((m.amid t memory').placed (some a) low.depth) =
        .error _ (Machine.placed _ ip low.depth) :=
      (Dictionary.step_branch hcode' hd' hp ht hs).2 _ _ e'
    rw [hfail, hfail']
    exact .fails ho hh
  | overflow =>
    obtain ⟨ip', hfail'⟩ : ∃ ip, d'.step ((m.amid t memory').placed (some a) low.depth) =
        .error _ (Machine.placed _ ip low.depth) :=
      (Dictionary.step_branch hcode' hd' hp ht hs).2 _ _ e'
    rw [hfail']
    exact .overflows

end Alike

/-- A return that finds nothing of its run's own ends the one run and takes the other back to
    the caller; any other goes on at the same place in both. -/
theorem Alike.exit {d d' : Dictionary σ} {defs : List Code} {low t : Stack} {back lo a : Nat} {m : Machine σ}
    {memory' : Memory} {code : List UInt8} (hcode : m.memory.Carries lo code)
    (hcode' : memory'.Carries lo code)
    (hd : d.Rooted) (hd' : d'.Rooted) (hs : Stands lo code a (Instr.plain .exit).bytes)
    (hback : back ≤ Cell.maxNat) (hmax : ∀ {a loops}, Point defs a loops → a ≤ Cell.maxNat)
    (hst : Paired defs low (low.pushed (Int32.ofNat back)) 0 m.ret t) :
    Alike defs low back m.memory memory' (d.step (m.placed (some a) low.depth))
      (d'.step ((m.amid t memory').placed (some a) low.depth)) := by
  generalize hret : m.ret = s at hst
  cases hst with
  | bottom =>
    rw [Dictionary.step_exit hcode hd hs (Nat.le_of_eq (by rw [hret])),
      Dictionary.step_token (m := m.amid _ memory') hcode' hd' rfl hs]
    have hleave :
        Primitive.exit.run
          ((m.amid (low.pushed (Int32.ofNat back)) memory').placed (some (a + 4)) low.depth) =
        .ok () ((m.amid low memory').placed (some back) low.depth) :=
      Machine.leave_pushed (m := m.amid (low.pushed (Int32.ofNat back)) memory') rfl hback (Nat.le_refl _) _
    rw [hleave]
    exact .returns rfl hret
  | @call loops b s t hst hpoint =>
    rw [Dictionary.step_token hcode hd rfl hs,
      Dictionary.step_token (m := m.amid _ memory') hcode' hd' rfl hs]
    have hdepth := hst.low_depth_le
    have hdepth' := Nat.le_trans hdepth (hst.fuller (low.fuller_pushed _)).depth
    have hleave : Primitive.exit.run (m.placed (some (a + 4)) low.depth) =
        .ok () (({ m with ret := s } : Machine σ).placed (some b) low.depth) :=
      Machine.leave_pushed hret (hmax hpoint) hdepth _
    have hleave' :
        Primitive.exit.run ((m.amid (t.pushed (Int32.ofNat b)) memory').placed (some (a + 4)) low.depth) =
        .ok () ((m.amid t memory').placed (some b) low.depth) :=
      Machine.leave_pushed (m := m.amid (t.pushed (Int32.ofNat b)) memory') rfl (hmax hpoint) hdepth' _
    rw [hleave, hleave']
    exact .goes (m := { m with ret := s }) rfl hpoint hst

/-- Every instruction of the definitions keeps the two runs in step. -/
theorem step_alike {d d' : Dictionary σ} {defs : List Code} {low t : Stack} {back : Nat} {m : Machine σ}
    {memory' : Memory} (hd : d.Rooted) (hext : d.Extends d') (hlib : d.Library defs m.memory)
    (hcarries : ∀ c ∈ defs, memory'.Carries c.entry c.bytes) (hback : back ≤ Cell.maxNat) {c : Code}
    (hc : c ∈ defs) {s : Site}
    (hs : s ∈ c.sites) (hst : Paired defs low (low.pushed (Int32.ofNat back)) s.loops m.ret t) :
    Alike defs low back m.memory memory' (d.step (m.placed (some s.addr) low.depth))
      (d'.step ((m.amid t memory').placed (some s.addr) low.depth)) := by
  have hd' := hd.extends hext
  have hcode := hlib.carries c hc
  have hcode' := hcarries c hc
  have hsound := (hlib.aloof c hc).sound
  have hstands := c.stands hs
  have hknown := hsound.known hcode hs
  have haligned := hsound.dvd_addr hs
  have haloof := (hlib.aloof c hc).instr hc hs
  have hflow : s.instr.Flows (Point defs) s.addr s.loops :=
    hsound.flows (fun t ht => ⟨c, hc, t, ht, rfl, rfl⟩) hs
  obtain ⟨a, loops, i⟩ := s
  cases i with
  | word xt =>
    obtain ⟨hx, -⟩ := hknown
    obtain ⟨e, he, hk | ⟨callee, hcallee, hk⟩⟩ := haloof
    · rw [Dictionary.step_ordinary hcode hx he hk.isOrdinary hstands,
        Dictionary.step_ordinary (m := m.amid t memory') hcode' hx (hext.get? he) hk.isOrdinary hstands]
      exact .of_aloof hk.perform hflow hst
    · exact .call hcode hcode' hst hx he (hext.get? he) hcallee hk hstands hflow (hlib.le_maxNat hflow)
  | plain p =>
    rcases hknown with rfl | rfl
    · exact .enterLoop hcode hcode' hst hd hd' hstands hflow
    · cases hflow
      exact .exit hcode hcode' hd hd' hstands hback hlib.le_maxNat hst
  | literal v =>
    rw [Dictionary.step_literal hcode hd hstands,
      Dictionary.step_literal (m := m.amid t memory') hcode' hd' hstands]
    exact .of_aloof (.onData _) hflow hst
  | branch p target => exact .branch hcode hcode' hst hd hd' hknown.1 hknown.2 hstands hflow
  | string u text =>
    cases haloof
    rw [Dictionary.step_print hcode hd text haligned hstands,
      Dictionary.step_print (m := m.amid t memory') hcode' hd' text haligned hstands]
    exact .of_aloof (.onOutput _) hflow hst

/-! ## Whole runs -/

/-- The two runs go side by side until the first is over: after as many steps as the first has
    taken, or when the second is back at the caller. -/
theorem run_alike {d d' : Dictionary σ} {defs : List Code} {low t : Stack} {back a loops : Nat}
    {m : Machine σ} {memory' : Memory}
    (hd : d.Rooted) (hext : d.Extends d') (hlib : d.Library defs m.memory)
    (hcarries : ∀ c ∈ defs, memory'.Carries c.entry c.bytes) (hback : back ≤ Cell.maxNat)
    (hpoint : Point defs a loops)
    (hst : Paired defs low (low.pushed (Int32.ofNat back)) loops m.ret t) (k : Nat) :
    ∃ j, Alike defs low back m.memory memory' (d.runFor k (m.placed (some a) low.depth))
        (d'.runFor j ((m.amid t memory').placed (some a) low.depth)) ∧
      (Dictionary.Over (d.runFor k (m.placed (some a) low.depth)) ∨ j = k) := by
  induction k generalizing m t a loops with
  | zero => exact ⟨0, .goes rfl hpoint hst, .inr rfl⟩
  | succ k ih =>
    obtain ⟨c, hc, s, hs, rfl, rfl⟩ := hpoint
    have hstep := step_alike hd hext hlib hcarries hback hc hs hst
    have hrun : d.runFor (k + 1) (m.placed (some s.addr) low.depth) =
        (d.step >>= fun _ => d.runFor k) (m.placed (some s.addr) low.depth) := d.runFor_succ rfl k
    have hrun' (j : Nat) : d'.runFor (j + 1) ((m.amid t memory').placed (some s.addr) low.depth) =
        (d'.step >>= fun _ => d'.runFor j) ((m.amid t memory').placed (some s.addr) low.depth) :=
      d'.runFor_succ rfl j
    generalize e : d.step (m.placed (some s.addr) low.depth) = r at hstep
    generalize e' : d'.step ((m.amid t memory').placed (some s.addr) low.depth) = r' at hstep
    cases hstep with
    | goes hm hpoint hst =>
      obtain ⟨j, halike, hover⟩ := ih (by rw [hm]; exact hlib) hpoint hst
      refine ⟨j + 1, ?_, ?_⟩
      · rw [hrun, hrun', bind_of_ok e, bind_of_ok e', ← hm]
        exact halike
      · rw [hrun, bind_of_ok e]
        exact hover.imp_right (congrArg (· + 1))
    | returns hm hret =>
      have hend : d.runFor (k + 1) (m.placed (some s.addr) low.depth) = .ok () _ :=
        hrun.trans ((bind_of_ok e).trans (d.runFor_of_ip_none rfl k))
      refine ⟨1, ?_, ?_⟩
      · rw [hend, d'.runFor_one rfl, e']
        exact .returns hm hret
      · rw [hend]
        exact .inl rfl
    | fails ho hh =>
      refine ⟨k + 1, ?_, .inr rfl⟩
      rw [hrun, hrun', bind_of_error e, bind_of_error e']
      exact .fails ho hh
    | overflows =>
      refine ⟨k + 1, ?_, .inr rfl⟩
      rw [hrun', bind_of_error e']
      exact .overflows

end Handheld
