import CallGrammar.Token.Rules

/-!
# CallGrammar.Token.Stream

A text as a sequence of tokens.  Each piece of the text is read by the longest
match of the token table; a character at which nothing matches is an invalid
token of its own.  Offsets count bytes.
-/

namespace CallGrammar.Token

/-- The number of bytes that the characters take. -/
def byteLength : List Char → Nat
  | [] => 0
  | c :: cs => c.utf8Size + byteLength cs

/-- The first piece of a text that begins with `c`: the token it is, or `none`
for blank space, and the number of its characters. -/
def firstPiece (c : Char) (cs : List Char) : Option Kind × Nat :=
  match Rule.best Rule.table (c :: cs) with
  | some (rule, n) => (rule.read ((c :: cs).take n), n)
  | none => (some (.invalid (.unexpectedCharacter c)), 1)

/-- The tokens of the text after its first `skip` characters.  `offset` is the
number of bytes before the text; `touchable` says that the piece before the
next one is a token that can be touched. -/
def scan (skip offset : Nat) (touchable : Bool) : List Char → List (Token Span)
  | [] => []
  | c :: cs =>
    match skip with
    | skip + 1 => scan skip (offset + c.utf8Size) touchable cs
    | 0 =>
      match firstPiece c cs with
      | (none, n) => scan (n - 1) (offset + c.utf8Size) false cs
      | (some kind, n) =>
        ⟨kind, ⟨offset, offset + byteLength ((c :: cs).take n)⟩, touchable⟩
          :: scan (n - 1) (offset + c.utf8Size) kind.canBeTouched cs

/-- All tokens of a text, comments included. -/
def ofText (source : String) : List (Token Span) :=
  scan 0 0 false source.toList

/-- The tokens without the comments. -/
def significant {σ : Type} (tokens : List (Token σ)) : List (Token σ) :=
  tokens.filter (!·.kind.isComment)

/-- The faults of the invalid tokens, in order. -/
def errors (tokens : List (Token Span)) : List LexicalError :=
  tokens.filterMap LexicalError.ofToken?

end CallGrammar.Token
