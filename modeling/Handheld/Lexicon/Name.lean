/-
  Handheld.Lexicon.Name — a word's name with its fingerprint.

  The fingerprint packs the byte length, at most 255, above the low 24 bits of the 32-bit
  FNV-1a hash of the bytes. Names are compared by fingerprint first and by text only when the
  fingerprints agree, which gives equality of the texts: a fingerprint depends on the text
  alone.
-/

import Handheld.Text.Blank
import Handheld.Text.Utf8

namespace Handheld

/-- The 32-bit FNV-1a hash. -/
def fnv1a (bytes : List UInt8) : UInt32 :=
  bytes.foldl (fun h b => (h ^^^ b.toUInt32) * 16777619) 2166136261

def fingerprint (text : String) : UInt32 :=
  let bytes := Text.utf8 text
  (UInt32.ofNat (min bytes.length 255) <<< 24) ||| (fnv1a bytes &&& 0xFFFFFF)

/-- The length that a fingerprint shows. -/
def fingerprintLength (p : UInt32) : Nat := (p >>> 24).toNat

structure Name where
  text : String
  print : UInt32
  print_eq : print = fingerprint text

namespace Name

def ofString (text : String) : Name := ⟨text, fingerprint text, rfl⟩

instance : BEq Name := ⟨fun a b => a.print == b.print && a.text == b.text⟩

theorem beq_iff (a b : Name) : (a == b) = true ↔ a.text = b.text := by
  obtain ⟨s, p, hp⟩ := a
  obtain ⟨t, q, hq⟩ := b
  simp only [BEq.beq, Bool.and_eq_true, decide_eq_true_eq]
  exact ⟨fun h => h.2, fun h => ⟨by rw [hp, hq, h], h⟩⟩

/-- A host may register a word under a name that is one word of source text. -/
def isWord (text : String) : Bool := !text.toList.isEmpty && !text.toList.any Text.isBlank

end Name

end Handheld
