import CallGrammar.ParseError
import CallGrammar.Text.Lines

/-!
# CallGrammar.Report

A parse error drawn into the lines of its source: a heading, the place, the
lines concerned with a label under them, and advice if there is any.

1. The label covers the bytes of the error.  At the end of the input, where
   there are none, it covers the last byte before.
2. Its offsets are then taken as offsets of characters: after a character of
   several bytes the label stands further to the right than the error.
3. A label within one line is underlined; one that reaches over several lines
   is bracketed on their left, the lines between its ends left out.
-/

namespace CallGrammar.Report

open Text

/-! ## the label -/

/-- The range of offsets that a label covers, and its text. -/
structure Label where
  start : Nat
  stop : Nat
  message : String

/-- The offsets to label for an error at `s` in a source of `length` bytes: at
least one, unless the source is empty. -/
def labelRange (s : Span) (length : Nat) : Nat × Nat :=
  if !s.isEmpty then (s.start, s.stop)
  else if s.start < length then (s.start, s.start + 1)
  else (length - 1, length)

def labelMessage : ParseError Span → String
  | .strayComma _ => "comma not allowed here"
  | .needsParentheses name _ => "`" ++ name ++ "` needs parentheses for more than one argument"
  | .unterminated construct _ => "this " ++ construct.name ++ " is never closed"
  | e => "expected " ++ e.expectedText?.getD ""

def Label.ofError (e : ParseError Span) (source : String) : Label :=
  let range := labelRange e.span source.utf8ByteSize
  ⟨range.1, range.2, labelMessage e⟩

namespace Label

/-- The last offset covered, or the start of a label that covers none. -/
def last (l : Label) : Nat := max (l.stop - 1) l.start

def covers (l : Label) (o : Nat) : Bool := l.start ≤ o && o < l.stop

end Label

/-! ## rows -/

/-- `n` copies of a character. -/
def times (n : Nat) (c : Char) : String := String.ofList (List.replicate n c)

/-- The margin that holds line numbers of `digits` digits. -/
structure Margin where
  digits : Nat

namespace Margin

def blank (m : Margin) : String := times (m.digits + 2) ' '

def gap (m : Margin) : String := m.blank ++ "│ "

/-- The margin of a line, with its number from one. -/
def numbered (m : Margin) (line : Line) : String :=
  let number := toString (line.index + 1)
  " " ++ times (m.digits - number.length) ' ' ++ number ++ " │ "

end Margin

/-- One column of a row: a mark, widened to the column by its filler. -/
def cell (width : Nat) (mark filler : Char) : List Char :=
  (List.replicate width filler).set 0 mark

/-- A row of cells under the columns of a line. -/
def row (line : Line) (columns : Nat) (marks : Nat → Char × Char) : String :=
  String.ofList ((List.range columns).flatMap fun column =>
    cell (line.columnWidth column) (marks column).1 (marks column).2)

/-- The rows of a label within one line. -/
def underlined (m : Margin) (line : Line) (label : Label) : List String :=
  if label.start < line.offset || line.stop < label.stop then [m.gap]
  else
    let middle := (label.start + label.stop) / 2 - line.offset
    let columns := label.stop - line.offset + 2
    let line₁ := row line columns fun column =>
      if label.covers (line.offset + column) then (if column = middle then '┬' else '─', '─')
      else (if column = middle then '│' else ' ', ' ')
    let line₂ := row line columns fun column =>
      if column < middle then (' ', ' ') else (if column = middle then '╰' else '─', '─')
    [m.numbered line ++ line.shown, m.gap ++ line₁, m.gap ++ line₂ ++ " " ++ label.message]

/-- The rows of a label over several lines; `skipping` says that the line before
was left out. -/
def bracketed (m : Margin) (label : Label) (skipping : Bool) : List Line → List String
  | [] => []
  | line :: lines =>
    if line.contains label.start then
      (m.numbered line ++ "╭─▶ " ++ line.shown) :: bracketed m label false lines
    else if line.contains label.last then
      let width := line.widthOf (line.chars.length + 2)
      [ m.numbered line ++ "├─▶ " ++ line.shown,
        m.gap ++ "│   " ++ times width ' ',
        m.gap ++ "╰───" ++ times width '─' ++ " " ++ label.message ]
        ++ bracketed m label false lines
    else
      let left := if label.covers line.offset then m.blank ++ "┆ ┆   " else m.gap
      (if skipping then [] else [left]) ++ bracketed m label true lines

/-! ## the whole report -/

/-- The margin of the rows with the advice. -/
def helpMargin (m : Margin) (lines : List Line) (label : Label) (oneLine : Bool) : String :=
  if oneLine then m.gap
  else if lines[1]?.any (·.offset == label.start) then m.gap ++ "│   "
  else m.gap ++ "    "

/-- The rows below the heading, if the label lies in the text. -/
def body (filename : String) (lines : List Line) (label : Label) (help : Option String) :
    List String :=
  match Line.at? lines label.start, Line.at? lines label.last with
  | some first, some last =>
    let m : Margin := ⟨(toString (last.index + 1)).length⟩
    let oneLine := first.index == last.index
    let concerned := lines.filter fun l => first.index ≤ l.index && l.index ≤ last.index
    [ m.blank ++ "╭─[" ++ filename ++ ":" ++ toString (first.index + 1) ++ ":"
        ++ toString (label.start - first.offset + 1) ++ "]",
      m.blank ++ "│" ]
      ++ (if oneLine then underlined m first label else bracketed m label false concerned)
      ++ (match help with
        | some text =>
          let margin := helpMargin m lines label oneLine
          [margin, margin ++ "Help: " ++ text]
        | none => [])
      ++ [times (m.digits + 2) '─' ++ "╯"]
  | _, _ => []

/-- The report of an error in `source`, which `filename` names. -/
def render (filename source : String) (e : ParseError Span) : String :=
  let rows := ("[" ++ e.code ++ "] Error: " ++ e.message)
    :: body filename (Line.ofText source.toList) (.ofError e source) e.help
  String.join (rows.map (· ++ "\n"))

end CallGrammar.Report
