/-
  Handheld.Settings.Value — structured values that settings are read from.
-/

import Handheld.Machine.Cell

namespace Handheld

inductive Value where
  | null
  | int (v : Int)
  | text (s : String)
  | list (items : List Value)
  | table (fields : List (String × Value))
  /-- A value of a kind that no setting has. -/
  | other
  deriving Inhabited

namespace Value

/-- A number of at most 64 bits. -/
def size? : Value → Option Nat
  | .int v => if 0 ≤ v ∧ v.toNat < UInt64.size then some v.toNat else none
  | _ => none

def cell? : Value → Option Cell
  | .int v => Cell.ofInt? v
  | _ => none

def text? : Value → Option String
  | .text s => some s
  | _ => none

/-- A number or, given as null, none. -/
def sizeOrNull? : Value → Option (Option Nat)
  | .null => some none
  | v => v.size?.map some

/-- The fields of a record with the keys given, in order. A table may hold any of them and no
    others; a list holds the first of them. -/
def fields? (keys : List String) : Value → Option (List (String × Value))
  | .table fields => if fields.all (fun (k, _) => keys.contains k) then some fields else none
  | .list items => if items.length ≤ keys.length then some (keys.zip items) else none
  | _ => none

/-- A field's value as `read` gives it, or the default of a field that is not there. -/
def field {α : Type} (fields : List (String × Value)) (key : String) (read : Value → Option α) (default : α) :
    Option α :=
  match fields.lookup key with
  | some v => read v
  | none => some default

end Value

end Handheld
