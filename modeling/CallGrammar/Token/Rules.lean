import CallGrammar.Token
import CallGrammar.Token.Quoted
import CallGrammar.Pattern

/-!
# CallGrammar.Token.Rules

The table of token patterns.  A text is read by the rule with the longest
match; of several the earliest in the table wins, so a keyword goes before the
name it also matches.  Three properties are worth knowing:

1. a keyword does not match right before a colon: there it is a name;
2. a bracketed comment ends at the first closer after its two opening
   characters, and an opener without one is a fault of two characters;
3. a quote that opens no complete string is a fault that runs over everything
   a string could hold: up to the end of the text, or to a backslash that
   stands before a line break or is itself the last character.
-/

namespace CallGrammar

/-- A pattern of the token table and what its matches are. -/
structure Rule where
  pattern : Pattern
  /-- A match does not count right before this character. -/
  notBefore : Option Char
  /-- The token that a match is; `none` if it is blank space. -/
  read : List Char → Option Kind

namespace Rule

open Pattern

/-! ## character classes -/

def isHexDigit (c : Char) : Bool :=
  c.isDigit || ('a' ≤ c && c ≤ 'f') || ('A' ≤ c && c ≤ 'F')

/-- Characters that may continue a name. -/
def isWordChar (c : Char) : Bool := c.isAlphanum || c == '_'

def isBlank (c : Char) : Bool := c == ' ' || c == '\t' || c == '\r'

/-! ## patterns -/

def digits : Pattern := plus (one Char.isDigit)

def hexadecimal : Pattern :=
  sequence [char '0', one (fun c => c == 'x' || c == 'X'), plus (one isHexDigit)]

def exponent : Pattern :=
  sequence [one (fun c => c == 'e' || c == 'E'),
    optional (one (fun c => c == '+' || c == '-')), digits]

def decimalFraction : Pattern :=
  sequence [digits, char '.', digits, optional exponent]

def scaledInteger : Pattern := sequence [digits, exponent]

/-- Segments joined by double colons, optionally after a leading one. -/
def qualified (segment : Pattern) : Pattern :=
  sequence [optional (text "::"), segment, star ((text "::").followedBy segment)]

def capitalised (first : Char → Bool) : Pattern :=
  (one first).followedBy (star (one isWordChar))

def variableName : Pattern :=
  (char '$').followedBy (qualified (plus (one isWordChar)))

/-- An opening quote and what may stand before the closing one. -/
def openString (quote : Char) : Pattern :=
  (char quote).followedBy
    (star (or (one fun c => c != quote && c != '\\')
      ((char '\\').followedBy (one (· != '\n')))))

def closedString (quote : Char) : Pattern :=
  (openString quote).followedBy (char quote)

def lineComment : Pattern :=
  (char '#').followedBy (star (one (· != '\n')))

def blockComment : Pattern :=
  sequence [text "/*",
    star (or (one (· != '*'))
      ((plus (char '*')).followedBy (one fun c => c != '*' && c != '/'))),
    plus (char '*'), char '/']

/-! ## the table -/

/-- A rule whose matches make a token of the matched text. -/
def texts (pattern : Pattern) (kind : String → Kind) : Rule :=
  ⟨pattern, none, fun cs => some (kind (String.ofList cs))⟩

def keyword (word : Keyword) : Rule :=
  ⟨text word.text, some ':', fun _ => some (.keyword word)⟩

def symbol (s : Symbol) : Rule :=
  ⟨text s.text, none, fun _ => some (.symbol s)⟩

/-- The rules of literals, names, comments, line breaks and blank space. -/
def classes : List Rule :=
  [ texts digits .integer,
    texts hexadecimal .integer,
    texts decimalFraction .float,
    texts scaledInteger .float,
    ⟨closedString '\'', none, fun cs => some (.singleQuoted (Quoted.value '\'' cs))⟩,
    ⟨closedString '"', none, fun cs => some (.doubleQuoted (Quoted.value '"' cs))⟩,
    texts (qualified (capitalised Char.isLower)) .name,
    texts (qualified (capitalised Char.isUpper)) .reference,
    ⟨variableName, none, fun cs => some (.var (String.ofList (cs.drop 1)))⟩,
    texts lineComment .lineComment,
    ⟨blockComment, none, fun cs =>
      some (.blockComment (String.ofList ((cs.drop 2).dropLast.dropLast)))⟩,
    ⟨char '\n', none, fun _ => some .newline⟩,
    ⟨plus (one isBlank), none, fun _ => none⟩ ]

/-- The rules of valid words and blank space. -/
def words : List Rule :=
  Keyword.all.map keyword ++ Symbol.all.map symbol ++ classes

/-- The rules of pieces that are no words, for openers without a closer. -/
def faults : List Rule :=
  [ ⟨text "/*", none, fun _ => some (.invalid .unterminatedComment)⟩,
    ⟨openString '\'', none, fun _ => some (.invalid .unterminatedString)⟩,
    ⟨openString '"', none, fun _ => some (.invalid .unterminatedString)⟩ ]

def table : List Rule := words ++ faults

/-! ## the longest match -/

/-- The length of the rule's longest match at the start of the text. -/
def reach (r : Rule) (cs : List Char) : Option Nat :=
  match r.pattern.longest cs with
  | none => none
  | some n =>
    if r.notBefore.isSome && (cs.drop n).head? == r.notBefore then none else some n

/-- The first of the rules that match longest, with the length of the match. -/
def best (rules : List Rule) (cs : List Char) : Option (Rule × Nat) :=
  match rules with
  | [] => none
  | r :: rs =>
    match r.reach cs, best rs cs with
    | none, found => found
    | some n, none => some (r, n)
    | some n, some (r', m) => if n < m then some (r', m) else some (r, n)

end Rule

end CallGrammar
