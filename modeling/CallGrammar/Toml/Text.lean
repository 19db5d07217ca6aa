/-!
# CallGrammar.Toml.Text

Strings, keys, blanks and comments.  Each function reads its piece from the
front of the text and gives what is left, or `none` if the piece is malformed;
strings are read after their opening quotes.
-/

namespace CallGrammar.Toml

/-! ## characters -/

/-- Characters that may stand in comments and, quotes and backslashes apart, in
strings: no controls but the tab. -/
def isTextChar (c : Char) : Bool := c == '\t' || (' ' ≤ c && c.toNat ≠ 0x7F)

def isBlank (c : Char) : Bool := c == ' ' || c == '\t'

/-- Characters of a key without quotes. -/
def isBareChar (c : Char) : Bool := c.isAlphanum || c == '_' || c == '-'

def hexValue? (c : Char) : Option Nat :=
  if c.isDigit then some (c.toNat - 48)
  else if 'a' ≤ c && c ≤ 'f' then some (c.toNat - 87)
  else if 'A' ≤ c && c ≤ 'F' then some (c.toNat - 55)
  else none

/-- The character with this code point in hexadecimal, if there is one. -/
def charOfHex? (digits : List Char) : Option Char := do
  let n ← digits.foldlM (fun n c => (hexValue? c).map (16 * n + ·)) 0
  if h : n.isValidChar then some (Char.ofNatAux n h) else none

/-- What a backslash and one letter stand for. -/
def escape? : Char → Option Char
  | 'b' => some '\x08'
  | 't' => some '\t'
  | 'n' => some '\n'
  | 'f' => some '\x0c'
  | 'r' => some '\r'
  | '"' => some '"'
  | '\\' => some '\\'
  | _ => none

/-! ## blanks and comments -/

/-- Go past blanks, line breaks and comments. -/
def skipTrivia (inComment : Bool) : List Char → Option (List Char)
  | [] => some []
  | '\r' :: '\n' :: cs => skipTrivia false cs
  | '\n' :: cs => skipTrivia false cs
  | c :: cs =>
    if inComment then if isTextChar c then skipTrivia true cs else none
    else if c = '#' then skipTrivia true cs
    else if isBlank c then skipTrivia false cs
    else some (c :: cs)

/-- Go past the rest of a line, which may hold a comment only. -/
def skipLine (inComment : Bool) : List Char → Option (List Char)
  | [] => some []
  | '\r' :: '\n' :: cs => some cs
  | '\n' :: cs => some cs
  | c :: cs =>
    if inComment then if isTextChar c then skipLine true cs else none
    else if c = '#' then skipLine true cs
    else if isBlank c then skipLine false cs
    else none

/-! ## strings -/

/-- Put a character before the value that was read. -/
def prepend (c : Char) : List Char × List Char → List Char × List Char
  | (value, rest) => (c :: value, rest)

/-- A string on one line, up to the closing double quote. -/
def basicString : List Char → Option (List Char × List Char)
  | '"' :: cs => some ([], cs)
  | '\\' :: 'u' :: a :: b :: c :: d :: cs => do
    let x ← charOfHex? [a, b, c, d]
    (basicString cs).map (prepend x)
  | '\\' :: 'U' :: a :: b :: c :: d :: e :: f :: g :: h :: cs => do
    let x ← charOfHex? [a, b, c, d, e, f, g, h]
    (basicString cs).map (prepend x)
  | '\\' :: c :: cs => do
    let x ← escape? c
    (basicString cs).map (prepend x)
  | c :: cs => if c ≠ '\\' && isTextChar c then (basicString cs).map (prepend c) else none
  | [] => none

/-- A string on one line without escapes, up to the closing single quote. -/
def literalString : List Char → Option (List Char × List Char)
  | '\'' :: cs => some ([], cs)
  | c :: cs => if isTextChar c then (literalString cs).map (prepend c) else none
  | [] => none

/-- Whether only blanks stand before the next line break. -/
def endsLine (cs : List Char) : Bool :=
  match cs.dropWhile isBlank with
  | '\n' :: _ => true
  | '\r' :: '\n' :: _ => true
  | _ => false

/-- A string over several lines, up to three double quotes; one or two more
before them belong to it.  `skipping` says that blanks and line breaks are left
out, as they are after a backslash at the end of a line. -/
def multiBasicString (skipping : Bool) : List Char → Option (List Char × List Char)
  | '"' :: '"' :: '"' :: '"' :: '"' :: cs => some (['"', '"'], cs)
  | '"' :: '"' :: '"' :: '"' :: cs => some (['"'], cs)
  | '"' :: '"' :: '"' :: cs => some ([], cs)
  | '\\' :: 'u' :: a :: b :: c :: d :: cs => do
    let x ← charOfHex? [a, b, c, d]
    (multiBasicString false cs).map (prepend x)
  | '\\' :: 'U' :: a :: b :: c :: d :: e :: f :: g :: h :: cs => do
    let x ← charOfHex? [a, b, c, d, e, f, g, h]
    (multiBasicString false cs).map (prepend x)
  | '\\' :: c :: cs =>
    if endsLine (c :: cs) then multiBasicString true cs
    else do
      let x ← escape? c
      (multiBasicString false cs).map (prepend x)
  | '\r' :: '\n' :: cs =>
    if skipping then multiBasicString true cs
    else (multiBasicString false cs).map (prepend '\n')
  | c :: cs =>
    if skipping && (isBlank c || c = '\n') then multiBasicString true cs
    else if c ≠ '\\' && (isTextChar c || c = '\n') then
      (multiBasicString false cs).map (prepend c)
    else none
  | [] => none

/-- A string over several lines without escapes, up to three single quotes. -/
def multiLiteralString : List Char → Option (List Char × List Char)
  | '\'' :: '\'' :: '\'' :: '\'' :: '\'' :: cs => some (['\'', '\''], cs)
  | '\'' :: '\'' :: '\'' :: '\'' :: cs => some (['\''], cs)
  | '\'' :: '\'' :: '\'' :: cs => some ([], cs)
  | '\r' :: '\n' :: cs => (multiLiteralString cs).map (prepend '\n')
  | c :: cs =>
    if isTextChar c || c = '\n' then (multiLiteralString cs).map (prepend c) else none
  | [] => none

/-- A line break right after the opening quotes does not belong to a string. -/
def skipFirstBreak : List Char → List Char
  | '\r' :: '\n' :: cs => cs
  | '\n' :: cs => cs
  | cs => cs

/-- A string of any form, from its opening quote. -/
def anyString : List Char → Option (List Char × List Char)
  | '"' :: '"' :: '"' :: cs => multiBasicString false (skipFirstBreak cs)
  | '"' :: cs => basicString cs
  | '\'' :: '\'' :: '\'' :: cs => multiLiteralString (skipFirstBreak cs)
  | '\'' :: cs => literalString cs
  | _ => none

/-- One segment of a key. -/
def keySegment : List Char → Option (List Char × List Char)
  | '"' :: cs => basicString cs
  | '\'' :: cs => literalString cs
  | cs =>
    let name := cs.takeWhile isBareChar
    if name.isEmpty then none else some (name, cs.dropWhile isBareChar)

end CallGrammar.Toml
