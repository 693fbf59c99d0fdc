/-
  Handheld.Settings.Toml — settings files.

  A file is read line by line: a blank line, a table header in brackets, or a key and its
  value, each with a comment at its end if there is one. Keys are bare or quoted; a value is a
  decimal integer of 64 bits or a string in quotes. A table may be opened once, and a key may
  be given once in its table.
-/

import Handheld.Settings.Value
import Handheld.Text.Blank
import Handheld.Text.Decimal
import Handheld.Text.Hex

namespace Handheld.Toml

def isSpace (c : Char) : Bool := c == ' ' || c == '\t'

def skipSpace (cs : List Char) : List Char := cs.dropWhile isSpace

/-- A character that may stand in a comment or a string. -/
def isText (c : Char) : Bool := c == '\t' || (0x20 ≤ c.toNat && c.toNat != 0x7F)

/-- Whether only blanks and a comment are left of the line. -/
def atEnd (cs : List Char) : Bool :=
  match skipSpace cs with
  | [] => true
  | '#' :: comment => comment.all isText
  | _ => false

def isBare (c : Char) : Bool :=
  ('a' ≤ c && c ≤ 'z') || ('A' ≤ c && c ≤ 'Z') || ('0' ≤ c && c ≤ '9') || c == '_' || c == '-'

/-- The character with that code in hexadecimal, if it is one. -/
def codePoint? (digits : List Char) : Option Char := do
  let n ← digits.foldlM (fun acc c => (Hex.digit? c).map fun d => 16 * acc + d.val) 0
  if n.isValidChar then some (Char.ofNat n) else none

def shortEscape? : Char → Option Char
  | 'b' => some '\x08'
  | 't' => some '\t'
  | 'n' => some '\n'
  | 'f' => some '\x0c'
  | 'r' => some '\r'
  | '"' => some '"'
  | '\\' => some '\\'
  | _ => none

/-- The rest of a string in double quotes and what follows it. -/
def basicString? (acc : List Char) : List Char → Option (String × List Char)
  | '"' :: rest => some (String.ofList acc.reverse, rest)
  | '\\' :: 'u' :: a :: b :: c :: d :: rest => do
    let ch ← codePoint? [a, b, c, d]
    basicString? (ch :: acc) rest
  | '\\' :: 'U' :: a :: b :: c :: d :: e :: f :: g :: h :: rest => do
    let ch ← codePoint? [a, b, c, d, e, f, g, h]
    basicString? (ch :: acc) rest
  | '\\' :: c :: rest => do
    let ch ← shortEscape? c
    basicString? (ch :: acc) rest
  | c :: rest => if isText c && c != '\\' then basicString? (c :: acc) rest else none
  | [] => none

/-- The rest of a string in single quotes, where nothing is escaped. -/
def literalString? (cs : List Char) : Option (String × List Char) :=
  match cs.dropWhile (fun c => isText c && c != '\'') with
  | '\'' :: rest => some (String.ofList (cs.takeWhile fun c => isText c && c != '\''), rest)
  | _ => none

def key? : List Char → Option (String × List Char)
  | '"' :: cs => basicString? [] cs
  | '\'' :: cs => literalString? cs
  | cs =>
    if (cs.takeWhile isBare).isEmpty then none
    else some (String.ofList (cs.takeWhile isBare), cs.dropWhile isBare)

/-- Digits with single underscores between them. -/
def joinDigits? : List Char → Option (List Char)
  | [] => some []
  | '_' :: _ => none
  | [c] => some [c]
  | c :: '_' :: d :: rest => if d == '_' then none else (joinDigits? (d :: rest)).map (c :: ·)
  | c :: rest => (joinDigits? rest).map (c :: ·)

/-- An unsigned integer: no zero stands before another digit. -/
def unsigned? (cs : List Char) : Option Nat :=
  match cs with
  | '0' :: _ :: _ => none
  | _ => do
    let digits ← joinDigits? cs
    Text.readNat? digits

def integer? (cs : List Char) : Option Int := do
  let v ← match cs with
    | '-' :: digits => (unsigned? digits).map fun n => -(n : Int)
    | '+' :: digits => (unsigned? digits).map fun n => (n : Int)
    | digits => (unsigned? digits).map fun n => (n : Int)
  if Int64.minValue.toInt ≤ v ∧ v ≤ Int64.maxValue.toInt then some v else none

/-- A value and what follows it. -/
def value? : List Char → Option (Value × List Char)
  | '"' :: cs => (basicString? [] cs).map fun (s, rest) => (.text s, rest)
  | '\'' :: cs => (literalString? cs).map fun (s, rest) => (.text s, rest)
  | cs =>
    let isPart (c : Char) : Bool := isBare c || c == '+'
    (integer? (cs.takeWhile isPart)).map fun v => (.int v, cs.dropWhile isPart)

abbrev Fields := List (String × Value)

/-- What has been read: the keys before any table, the closed tables, and the open one. -/
structure Document where
  top : Fields
  closed : List (String × Fields)
  current : Option (String × Fields)

namespace Document

/-- Adds a field whose key must be new. -/
def add? (fields : Fields) (key : String) (v : Value) : Option Fields :=
  if (fields.lookup key).isSome then none else some (fields ++ [(key, v)])

def tables (d : Document) : List (String × Fields) := d.closed ++ d.current.toList

/-- Opens a table whose name must be new. -/
def openTable? (d : Document) (name : String) : Option Document :=
  if (d.tables.lookup name).isSome || (d.top.lookup name).isSome then none
  else some { d with closed := d.tables, current := some (name, []) }

/-- Gives a key of the open table its value. -/
def give? (d : Document) (key : String) (v : Value) : Option Document :=
  match d.current with
  | none => (add? d.top key v).map fun top => { d with top := top }
  | some (name, fields) => (add? fields key v).map fun fields => { d with current := some (name, fields) }

def toValue (d : Document) : Value :=
  .table (d.top ++ d.tables.map fun (name, fields) => (name, .table fields))

end Document

/-- Reads one line. -/
def readLine (d : Document) (line : List Char) : Option Document :=
  match skipSpace line with
  | '[' :: cs => do
    let (name, cs) ← key? (skipSpace cs)
    match skipSpace cs with
    | ']' :: rest => if atEnd rest then d.openTable? name else none
    | _ => none
  | cs =>
    if atEnd cs then some d
    else do
      let (key, cs) ← key? cs
      match skipSpace cs with
      | '=' :: cs => do
        let (v, rest) ← value? (skipSpace cs)
        if atEnd rest then d.give? key v else none
      | _ => none

/-- The text without the byte order mark it may start with. -/
def dropMark : List Char → List Char
  | '\ufeff' :: cs => cs
  | cs => cs

def parse? (text : String) : Option Value := do
  let d ← (Text.lines (dropMark text.toList)).foldlM readLine ⟨[], [], none⟩
  return d.toValue

end Handheld.Toml
