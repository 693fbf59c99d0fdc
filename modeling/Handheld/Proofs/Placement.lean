/-
  Handheld.Proofs.Placement — a completed definition is its structure, laid out.

  The compiler lays code down as it reads and fills branches in later; what stands in memory
  when it is done depends on none of that. It is the code of the body that the grammar gives the
  text, at the address the definition began at, and behind it a return
  (`definition_laid_out`). Every branch in it goes to where an instruction of the same
  definition begins, the return at its end included (`Code.lands`).
-/

import Handheld.Proofs.Grammar
import Handheld.Proofs.Safety

namespace Handheld

variable {σ : Type}

/-- The address that a branch, or the end of a loop, goes to. -/
def Instr.target? : Instr → Option Nat
  | .branch _ target => some target
  | _ => none

/-- A branch of a body leads to an instruction of the body, or to its end. -/
theorem Body.lands {P : Nat → Prop} {xt a loops : Nat} {b : Body}
    (hsites : ∀ s ∈ b.sites xt a loops, P s.addr)
    (hend : P (a + b.size)) : ∀ s ∈ b.sites xt a loops, ∀ target,
    s.instr.target? = some target → P target := by
  have enters {a loops : Nat} {c : Body} (hsites : ∀ s ∈ c.sites xt a loops,
      P s.addr) (hend : P (a + c.size)) : P a :=
    Body.enters (P := fun a _ => P a) hsites hend
  -- what is no branch has no target
  have none {i : Instr} (hi : i.target? = none) : ∀ target, i.target? = some target → P target := by
    intro target h
    rw [hi] at h
    cases h
  have goes {p : Primitive} {t : Nat} (ht : P t) : ∀ target,
      (Instr.branch p t).target? = some target → P target := by
    rintro _ ⟨⟩
    exact ht
  induction b generalizing a loops with
  | empty => simp [sites]
  | word | literal | string | recurse | exit => exact List.forall_mem_cons.mpr ⟨none rfl, by simp⟩
  | seq b c ihb ihc =>
    simp only [sites, List.forall_mem_append] at hsites ⊢
    rw [size, ← Nat.add_assoc] at hend
    exact ⟨ihb hsites.1 (enters hsites.2 hend), ihc hsites.2 hend⟩
  | ifThen yes ih =>
    simp only [sites, List.forall_mem_cons] at hsites ⊢
    rw [size, ← Nat.add_assoc] at hend
    exact ⟨goes hend, ih hsites.2 hend⟩
  | ifElse yes no ihy ihn =>
    simp only [sites, List.forall_mem_cons, List.forall_mem_append] at hsites ⊢
    rw [size, ← Nat.add_assoc, ← Nat.add_assoc, ← Nat.add_assoc] at hend
    obtain ⟨-, hyes, hjump, hno⟩ := hsites
    exact ⟨goes (enters hno hend), ihy hyes hjump, goes hend, ihn hno hend⟩
  | beginUntil body ih | beginAgain body ih =>
    simp only [sites, List.forall_mem_append, List.forall_mem_cons] at hsites ⊢
    obtain ⟨hbody, hback, -⟩ := hsites
    exact ⟨ih hbody hback, goes (enters hbody hback), by simp⟩
  | beginWhile test body iht ih =>
    simp only [sites, List.forall_mem_append, List.forall_mem_cons] at hsites ⊢
    rw [size, ← Nat.add_assoc, ← Nat.add_assoc, ← Nat.add_assoc] at hend
    obtain ⟨htest, hflag, hbody, hback, -⟩ := hsites
    exact ⟨iht htest hflag, goes hend, ih hbody hback, goes (enters htest hflag), by simp⟩
  | doLoop body ih | doPlusLoop body ih =>
    simp only [sites, List.forall_mem_append, List.forall_mem_cons] at hsites ⊢
    obtain ⟨-, hbody, hagain, -⟩ := hsites
    exact ⟨none rfl, ih hbody hagain, goes (enters hbody hagain), by simp⟩

namespace Code

variable {c : Code}

/-- A branch of a definition goes to an instruction of the definition. -/
theorem lands {i : Site} (hi : i ∈ c.sites) {target : Nat} (ht : i.instr.target? = some target) :
    ∃ j ∈ c.sites, j.addr = target := by
  rcases List.mem_append.mp hi with hb | he
  · exact Body.lands (P := fun a => ∃ j ∈ c.sites, j.addr = a)
      (fun j hj => ⟨j, List.mem_append_left _ hj, rfl⟩) ⟨_, c.mem_exit, rfl⟩ i hb target ht
  · cases List.mem_singleton.mp he
    cases ht

/-- The instructions of a definition are inside its code, the last of them four bytes from its
    end at least. -/
theorem addr_mem {i : Site} (hi : i ∈ c.sites) : c.entry ≤ i.addr ∧ i.addr + 4 ≤ c.stop := by
  have hs := c.stands hi
  have hpos := i.instr.size_pos
  have hend := hs.end_le
  rw [Instr.length_bytes, ← c.stop_eq] at hend
  exact ⟨hs.le, by omega⟩

end Code

namespace Engine

/-- The definition of `w` as `b`, begun in `s`, stands in the memory of `s'`. -/
structure LaidOut (s : Engine σ) (w : String) (b : Body) (s' : Engine σ) : Prop where
  token : s'.dict.find? w = some s.dict.size
  entry : s'.dict.entry? w = some s.entry
  /-- No token and no length is too large for a cell. -/
  fits : b.Each (Body.Fits s.dict.size) 0
  code : s'.machine.memory.slice s.entry (s'.machine.memory.here - s.entry) =
    b.bytes s.dict.size s.entry ++ (Instr.plain .exit).bytes
  /-- That is a row of instructions without gaps. -/
  row : Row s.entry (s.coding b).sites s'.machine.memory.here
  bytes : (s.coding b).sites.flatMap (·.instr.bytes) = b.bytes s.dict.size s.entry ++
      (Instr.plain .exit).bytes
  /-- Every branch goes to where one of them begins. -/
  lands : ∀ i ∈ (s.coding b).sites, ∀ target, i.instr.target? = some target →
    (∃ j ∈ (s.coding b).sites, j.addr = target) ∧ s.entry ≤ target ∧ target ≤ s'.machine.memory.here - 4

theorem Defined.laidOut {s s' : Engine σ} {w : String} {b : Body} (hd : s.Defined w b s') :
    s.LaidOut w b s' := by
  have hrow : Row s.entry (s.coding b).sites (s.coding b).stop := (s.coding b).whole.row_sites ..
  have hlen :
      s'.machine.memory.here - s.entry =
        (b.bytes s.dict.size s.entry ++ (Instr.plain .exit).bytes).length := by
    rw [hd.laid.here, Nat.add_sub_cancel_left]
  refine ⟨?_, ?_, hd.fits, ?_, ?_, Body.flatMap_sites .., fun i hi target ht => ?_⟩
  · rw [hd.dict, Dictionary.find?_push]
  · rw [hd.dict, Dictionary.entry?_push]
  · rw [hlen]
    exact hd.laid.code
  · rw [← hd.stop]
    exact hrow
  · obtain ⟨j, hj, rfl⟩ := Code.lands hi ht
    obtain ⟨hle, hend⟩ := Code.addr_mem hj
    rw [hd.stop] at hend
    exact ⟨⟨j, hj, rfl⟩, hle, by omega⟩

/-- A text that compiles, between a colon with a name and the first semicolon behind it, is the
    text of a body. -/
theorem exists_reads_of_defined {s s' : Engine σ} (hm : s.mode = .run) (hv : s.machine.memory.Valid)
    {fuel : Nat} {t u : Token}
    {w : String} {ps : List Phrase} (hps : ∀ p ∈ ps, ∀ v, p ≠ .control .semicolon v)
    (hdef : feedAll fuel (.define .colon t (some w) :: ps ++ [.control .semicolon u]) s = .ok () s') :
    ∃ b, Reads s.dict ps b := by
  rw [feedAll_append] at hdef
  obtain ⟨_, s₂, hbody, hclose⟩ := bind_ok_iff.mp hdef
  obtain ⟨_, s₁, hopen, hbody⟩ := bind_ok_iff.mp hbody
  rw [feed_of_run hm] at hopen
  obtain ⟨d, z, hr, hu⟩ := (openDraft_ok hv hopen).reads hv hps hbody
  obtain ⟨_, s₃, hsemicolon, -⟩ := bind_ok_iff.mp hclose
  rw [feed_of_compile hu.drafting.mode] at hsemicolon
  obtain ⟨htop, -⟩ := hu.close hm hsemicolon
  exact ⟨z.body, reads_iff_readAll.mpr (by rw [hr, ← htop])⟩

/-- Between a colon with a name and the semicolon that ends it, a text that compiles is the
    text of a body, and the memory from the entry of the definition to the free end holds the
    code of that body, each word as the token its name had before, and a return. -/
theorem definition_laid_out {s s' : Engine σ} (hm : s.mode = .run) (hv : s.machine.memory.Valid)
    {fuel : Nat} {t u : Token}
    {w : String} {ps : List Phrase} (hps : ∀ p ∈ ps, ∀ v, p ≠ .control .semicolon v)
    (hdef : feedAll fuel (.define .colon t (some w) :: ps ++ [.control .semicolon u]) s = .ok () s') :
    (∃ b, Reads s.dict ps b) ∧ ∀ b, Reads s.dict ps b → s.LaidOut w b s' :=
  ⟨exists_reads_of_defined hm hv hps hdef, fun _ hb => (defined_of_reads hv hm hb hdef).laidOut⟩

/-- A text with a hole in a hole: a choice in a loop in another loop, and a string whose bytes
    end inside a cell. -/
def windingText : List Phrase :=
  (Source.ofText "winding" "begin dup while .\" né\" 3 0 do i if recurse else exit then loop repeat").phrases

def windingDefinition : List Phrase :=
  .define .colon ⟨":", ⟨"winding", 1, 1⟩⟩ (some "winding") :: windingText ++
      [.control .semicolon ⟨";", ⟨"winding", 2, 1⟩⟩]

def wound : Engine Unit := stateAfter (feedAll 0 windingDefinition) fresh

theorem definition_laid_out_winding :
    (fresh.mode = .run ∧ fresh.machine.memory.Valid ∧ feedAll 0 windingDefinition fresh = .ok () wound) ∧
    (∃ b, Reads fresh.dict windingText b) ∧
    ∀ b, Reads fresh.dict windingText b → fresh.LaidOut "winding" b wound := by
  have hfacts : succeeds (feedAll 0 windingDefinition) fresh = true ∧
      windingText.all (!·.isSemicolon) = true := by
    decide +kernel
  have hdef := ok_of_succeeds hfacts.1
  have hvalid : fresh.machine.memory.Valid := Memory.valid_empty _
  refine ⟨⟨rfl, hvalid, hdef⟩, definition_laid_out rfl hvalid (fun p hp v e => ?_) hdef⟩
  have hno := List.all_eq_true.mp hfacts.2 p hp
  rw [e] at hno
  cases hno

end Engine

end Handheld
