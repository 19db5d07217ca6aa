import CallGrammar.Text.Blank

/-!
# CallGrammar.Layout

Nested lists of words laid out as text.

1. A list stands in parentheses, its parts in order.
2. Between two pieces of text stands one space, except after an opening
   parenthesis or a blank, and before a closing parenthesis or a blank.
3. A line break is followed by two spaces for each level of indentation; the
   parts `indent` and `dedent` change the level and leave no text.
-/

namespace CallGrammar

/-- What is laid out. -/
inductive Part where
  | text (s : String)
  | list (parts : List Part)
  | lineBreak
  | indent
  | dedent

namespace Part

/-! ## pieces -/

/-- A line break and the spaces of `level` levels of indentation. -/
def breakPiece (level : Nat) : String :=
  String.ofList ('\n' :: List.replicate (2 * level) ' ')

mutual

/-- The pieces of text of a part that begins at `level`, and the level at which
it ends. -/
def pieces (level : Nat) : Part → List String × Nat
  | text s => ([s], level)
  | list parts =>
    let inner := piecesOfAll level parts
    ("(" :: inner.1 ++ [")"], inner.2)
  | lineBreak => ([breakPiece level], level)
  | indent => ([], level + 1)
  | dedent => ([], level - 1)

/-- The same for parts that follow each other. -/
def piecesOfAll (level : Nat) : List Part → List String × Nat
  | [] => ([], level)
  | part :: parts =>
    let first := pieces level part
    let rest := piecesOfAll first.2 parts
    (first.1 ++ rest.1, rest.2)

end

/-! ## text -/

/-- Whether a space goes between two pieces. -/
def spaceBetween (before after : String) : Bool :=
  after != ")"
    && !before.toList.getLast?.any (fun c => Text.isBlank c || c == '(')
    && !after.toList.head?.any Text.isBlank

/-- The characters of the pieces after `before`, with the spaces between them. -/
def joinAfter (before : String) : List String → List Char
  | [] => []
  | piece :: rest =>
    (if spaceBetween before piece then [' '] else []) ++ piece.toList ++ joinAfter piece rest

/-- The characters of the pieces with the spaces between them. -/
def join : List String → List Char
  | [] => []
  | piece :: rest => piece.toList ++ joinAfter piece rest

/-- The text of a part. -/
def format (part : Part) : String := String.ofList (join (pieces 0 part).1)

end Part

end CallGrammar
