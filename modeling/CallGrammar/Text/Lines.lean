import CallGrammar.Text.Blank
import CallGrammar.Text.Width

/-!
# CallGrammar.Text.Lines

A text as lines on a page.  A line ends with a line break, which belongs to it,
or at the end of the text; after a final break there is no further line.  A tab
reaches to the next multiple of four, counted in characters.
-/

namespace CallGrammar.Text

/-! ## lines -/

/-- The characters that end a line. -/
def isLineBreak (c : Char) : Bool :=
  c == '\r' || c == '\n' || c == '\x0b' || c == '\x0c' || c.toNat == 0x85 || c.toNat == 0x2028
    || c.toNat == 0x2029

/-- The lines of a text; a carriage return and a line feed are one break. -/
def splitLines : List Char → List (List Char)
  | [] => []
  | '\r' :: '\n' :: cs => ['\r', '\n'] :: splitLines cs
  | c :: cs =>
    if isLineBreak c then [c] :: splitLines cs
    else
      match splitLines cs with
      | [] => [[c]]
      | line :: lines => (c :: line) :: lines

/-- A line with its number, from zero, and the number of characters before it. -/
structure Line where
  index : Nat
  offset : Nat
  chars : List Char

namespace Line

/-- The offset after the line and its break. -/
def stop (l : Line) : Nat := l.offset + l.chars.length

/-- Whether the character at offset `o` belongs to the line. -/
def contains (l : Line) (o : Nat) : Bool := l.offset ≤ o && o < l.stop

/-- Lines with their numbers and offsets, the first of them at these. -/
def number (index offset : Nat) : List (List Char) → List Line
  | [] => []
  | chars :: rest => ⟨index, offset, chars⟩ :: number (index + 1) (offset + chars.length) rest

/-- The lines of a text. -/
def ofText (text : List Char) : List Line := number 0 0 (splitLines text)

/-- The last line that begins at offset `o` or before, unless `o` is past the
end of the text. -/
def at? (lines : List Line) (o : Nat) : Option Line :=
  match lines.getLast? with
  | none => none
  | some last => if last.stop < o then none else (lines.filter (·.offset ≤ o)).getLast?

/-! ## columns -/

/-- The width of character `c` at column `column`; all blanks but the tab are
shown as a space. -/
def charWidth (column : Nat) (c : Char) : Nat :=
  if c = '\t' then (column / 4 + 1) * 4 - column
  else if isBlank c then 1
  else width c

/-- The characters of a line without the blanks at its end. -/
def trimmed (l : Line) : List Char := (l.chars.reverse.dropWhile isBlank).reverse

/-- The width of a column; beyond the last character that is no blank each is
one wide. -/
def columnWidth (l : Line) (column : Nat) : Nat :=
  match l.trimmed[column]? with
  | some c => charWidth column c
  | none => 1

/-- The width of the first `columns` columns. -/
def widthOf (l : Line) (columns : Nat) : Nat :=
  (List.range columns).foldl (fun w column => w + l.columnWidth column) 0

/-- The characters of a line from `column` on, as they are shown. -/
def display (column : Nat) : List Char → List Char
  | [] => []
  | c :: cs =>
    (if c = '\t' then List.replicate (charWidth column c) ' '
      else if isBlank c then [' ']
      else [c]) ++ display (column + 1) cs

/-- The line as it is shown, without the blanks at its end. -/
def shown (l : Line) : String :=
  String.ofList (display 0 l.trimmed)

end Line

end CallGrammar.Text
