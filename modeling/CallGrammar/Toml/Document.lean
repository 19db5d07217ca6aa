import CallGrammar.Toml.Scalar
import CallGrammar.Toml.Table
import CallGrammar.Toml.Text

/-!
# CallGrammar.Toml.Document

TOML documents.  A document is a sequence of lines: keys with values, headers
of tables and of arrays of tables, blank lines and comments.  Reading one gives
a table of data, each value with its place, or nothing if the text is no
document.  Arrays and inline tables nest, and dotted keys have segments, up to a
fixed number.
-/

namespace CallGrammar.Toml

/-! ## reading -/

/-- What is left of a text, and the number of characters before it. -/
structure Input where
  place : Nat
  rest : List Char

/-- A way to read a piece of a text, or to find it malformed. -/
abbrev Scan := StateT Input Option

namespace Scan

def place : Scan Nat := do return (← get).place

def peek : Scan (Option Char) := do return (← get).rest.head?

/-- Read the piece that `piece` finds at the front. -/
def piece {α : Type} (piece : List Char → Option (α × List Char)) : Scan α := fun i =>
  (piece i.rest).map fun (value, rest) =>
    (value, ⟨i.place + (i.rest.length - rest.length), rest⟩)

/-- Go past what `skip` finds at the front. -/
def skip (skip : List Char → Option (List Char)) : Scan Unit :=
  piece fun cs => (skip cs).map ((), ·)

def blanks : Scan Unit := skip fun cs => some (cs.dropWhile isBlank)

/-- Go past the character `c`. -/
def char (c : Char) : Scan Unit := skip (Scalar.after? c)

end Scan

open Scan

/-- The number of levels that values may nest, and of segments that a key may
have. -/
def nestingLimit : Nat := 80

/-! ## keys -/

def key : Scan Key := do
  let here ← place
  let name ← piece keySegment
  return ⟨String.ofList name, here⟩

/-- The segments of a dotted key; there are at most `fuel`. -/
def dottedKey : Nat → Scan (List Key)
  | 0 => failure
  | fuel + 1 => do
    blanks
    let first ← key
    blanks
    if (← peek) = some '.' then
      char '.'
      let rest ← dottedKey fuel
      return first :: rest
    else return [first]

/-- The segments of a key before the last one, and that. -/
def keyPath : Scan (List Key × Key) := do
  let keys ← dottedKey (nestingLimit - 1)
  match keys.getLast? with
  | some last => return (keys.dropLast, last)
  | none => failure

/-! ## values -/

/-- The key under which a date or a time, taken as a table, keeps its text. -/
def momentKey : String := "$__toml_private_datetime"

/-- A value of one word.  A date or a time is a table with its text as the only
member. -/
def scalar : Scan Datum := do
  let here ← place
  let word ← piece fun cs => some (Scalar.splitWord cs)
  match Scalar.ofWord? word with
  | some (.boolean b) => return .boolean here b
  | some (.integer n) => return .integer here n
  | some (.float x) => return .float here x
  | some .moment => return .table here [⟨momentKey, here, .string here (String.ofList word)⟩]
  | none => failure

mutual

/-- A value below `depth` others.  `fuel` bounds the calls; the number of
characters left, doubled, is enough. -/
def value (depth : Nat) : Nat → Scan Datum
  | 0 => failure
  | fuel + 1 => do
    let here ← place
    match ← peek with
    | some '"' | some '\'' =>
      let text ← piece anyString
      return .string here (String.ofList text)
    | some '[' =>
      if depth + 1 ≥ nestingLimit then failure
      char '['
      let found ← items (depth + 1) fuel
      return .sequence here found
    | some '\x7b' =>
      if depth + 1 ≥ nestingLimit then failure
      char '\x7b'
      blanks
      let assignments ← if (← peek) = some '\x7d' then pure [] else pairs (depth + 1) fuel
      char '\x7d'
      match (Table.parent false).withHeader here assignments with
      | some table => return table.toDatum here
      | none => failure
    | _ => scalar

/-- The items of an array, and its closing bracket. -/
def items (depth : Nat) : Nat → Scan (List Datum)
  | 0 => failure
  | fuel + 1 => do
    skip (skipTrivia false)
    if (← peek) = some ']' then
      char ']'
      return []
    else
      let first ← value depth fuel
      skip (skipTrivia false)
      if (← peek) = some ',' then
        char ','
        let rest ← items depth fuel
        return first :: rest
      else
        char ']'
        return [first]

/-- The keys and values of an inline table. -/
def pairs (depth : Nat) : Nat → Scan (List Table.Assignment)
  | 0 => failure
  | fuel + 1 => do
    let (path, last) ← keyPath
    char '='
    blanks
    let found ← value depth fuel
    blanks
    if (← peek) = some ',' then
      char ','
      let rest ← pairs depth fuel
      return ⟨path, last, found⟩ :: rest
    else return [⟨path, last, found⟩]

end

/-! ## lines -/

/-- A line of a document that is neither blank nor a comment. -/
inductive Line where
  | assignment (assignment : Table.Assignment)
  | table (place : Nat) (path : List Key) (key : Key)
  | element (place : Nat) (path : List Key) (key : Key)

def line : Scan Line := do
  let here ← place
  if (← peek) = some '[' then
    char '['
    if (← peek) = some '[' then
      char '['
      let (path, last) ← keyPath
      char ']'
      char ']'
      return .element here path last
    else
      let (path, last) ← keyPath
      char ']'
      return .table here path last
  else
    let (path, last) ← keyPath
    char '='
    blanks
    let found ← value 0 (2 * (← get).rest.length + 2)
    return .assignment ⟨path, last, found⟩

/-- The lines of a document; there are at most `fuel`. -/
def lines : Nat → Scan (List Line)
  | 0 => failure
  | fuel + 1 => do
    skip (skipTrivia false)
    if (← peek).isNone then return []
    else
      let first ← line
      skip (skipLine false)
      let rest ← lines fuel
      return first :: rest

/-! ## documents -/

/-- The assignments before the first header, and the lines from there on. -/
def leadingAssignments : List Line → List Table.Assignment × List Line
  | .assignment a :: rest =>
    let (assignments, others) := leadingAssignments rest
    (a :: assignments, others)
  | rest => ([], rest)

/-- Add the tables that headers define, each with the keys up to the next
header; there are at most `fuel` headers. -/
def addSections (t : Table) : Nat → List Line → Option Table
  | _, [] => some t
  | 0, _ :: _ => none
  | fuel + 1, line :: rest => do
    let (assignments, others) := leadingAssignments rest
    let t ← match line with
      | .table here path key => t.addTable path key here assignments
      | .element here path key => t.addElement path key here assignments
      | .assignment a => t.assign a
    addSections t fuel others

/-- The table of a document that has these lines. -/
def ofLines (found : List Line) : Option Table := do
  let (assignments, sections) := leadingAssignments found
  let root ← (Table.parent false).withHeader 0 assignments
  addSections root sections.length sections

/-- A byte order mark in front of a document does not belong to it. -/
def skipMark : List Char → List Char
  | '\ufeff' :: cs => cs
  | cs => cs

/-- The data of a document. -/
def parse? (text : String) : Option Datum := do
  let cs := text.toList
  let rest := skipMark cs
  let (found, _) ← (lines (rest.length + 1)).run ⟨cs.length - rest.length, rest⟩
  let table ← ofLines found
  return table.toDatum 0

end CallGrammar.Toml
