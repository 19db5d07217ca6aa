import CallGrammar.Span

/-!
# CallGrammar.Token

The words of the language: keywords, symbols, literals, names, comments, line
breaks, and the pieces of a text that are no word at all, each with its fault.

A token has three spellings besides its text: `Kind.label` (the name of its
kind, used in listings), `Kind.payload` (the text a literal, a name or a
comment carries) and `Kind.display` (how a message refers to it).
-/

namespace CallGrammar

/-! ## reserved words and symbols -/

/-- The words that are never names. -/
inductive Keyword where
  | ifWord | elsifWord | elseWord | unlessWord
  | trueWord | falseWord | undefWord
  | andWord | orWord | inWord
  deriving DecidableEq

namespace Keyword

/-- All keywords, in the order of the token table. -/
def all : List Keyword :=
  [ifWord, elsifWord, elseWord, unlessWord, trueWord, falseWord, undefWord,
    andWord, orWord, inWord]

def text : Keyword → String
  | ifWord => "if"
  | elsifWord => "elsif"
  | elseWord => "else"
  | unlessWord => "unless"
  | trueWord => "true"
  | falseWord => "false"
  | undefWord => "undef"
  | andWord => "and"
  | orWord => "or"
  | inWord => "in"

def label : Keyword → String
  | ifWord => "If"
  | elsifWord => "Elsif"
  | elseWord => "Else"
  | unlessWord => "Unless"
  | trueWord => "True"
  | falseWord => "False"
  | undefWord => "Undef"
  | andWord => "And"
  | orWord => "Or"
  | inWord => "In"

end Keyword

/-- Operators, brackets and separators. -/
inductive Symbol where
  | assign | equal | notEqual | less | greater | lessEqual | greaterEqual
  | plus | minus | star | slash | percent | bang | arrow
  | openParen | closeParen | openBracket | closeBracket | openBrace | closeBrace
  | comma | semicolon | dot | pipe | pipePipe
  deriving DecidableEq

namespace Symbol

/-- All symbols, in the order of the token table. -/
def all : List Symbol :=
  [assign, equal, notEqual, less, greater, lessEqual, greaterEqual,
    plus, minus, star, slash, percent, bang, arrow,
    openParen, closeParen, openBracket, closeBracket, openBrace, closeBrace,
    comma, semicolon, dot, pipe, pipePipe]

def text : Symbol → String
  | assign => "="
  | equal => "=="
  | notEqual => "!="
  | less => "<"
  | greater => ">"
  | lessEqual => "<="
  | greaterEqual => ">="
  | plus => "+"
  | minus => "-"
  | star => "*"
  | slash => "/"
  | percent => "%"
  | bang => "!"
  | arrow => "=>"
  | openParen => "("
  | closeParen => ")"
  | openBracket => "["
  | closeBracket => "]"
  | openBrace => "\x7b"
  | closeBrace => "\x7d"
  | comma => ","
  | semicolon => ";"
  | dot => "."
  | pipe => "|"
  | pipePipe => "||"

def label : Symbol → String
  | assign => "Eq"
  | equal => "EqEq"
  | notEqual => "NotEq"
  | less => "Lt"
  | greater => "Gt"
  | lessEqual => "LtEq"
  | greaterEqual => "GtEq"
  | plus => "Plus"
  | minus => "Minus"
  | star => "Star"
  | slash => "Slash"
  | percent => "Percent"
  | bang => "Bang"
  | arrow => "FatArrow"
  | openParen => "LParen"
  | closeParen => "RParen"
  | openBracket => "LBracket"
  | closeBracket => "RBracket"
  | openBrace => "LBrace"
  | closeBrace => "RBrace"
  | comma => "Comma"
  | semicolon => "Semi"
  | dot => "Dot"
  | pipe => "Pipe"
  | pipePipe => "PipePipe"

end Symbol

/-! ## faults -/

/-- Why a piece of the text is no word. -/
inductive Fault where
  /-- No word begins with this character. -/
  | unexpectedCharacter (c : Char)
  /-- A quote that opens a string which is never closed. -/
  | unterminatedString
  /-- A comment opener without its closer. -/
  | unterminatedComment
  deriving DecidableEq

/-! ## kinds -/

/-- What a token is, with the text it carries. -/
inductive Kind where
  | keyword (word : Keyword)
  | symbol (symbol : Symbol)
  | integer (text : String)
  | float (text : String)
  /-- A string in single quotes, decoded. -/
  | singleQuoted (value : String)
  /-- A string in double quotes, decoded. -/
  | doubleQuoted (value : String)
  /-- A lower-case name, possibly qualified. -/
  | name (text : String)
  /-- A capitalised reference, possibly qualified. -/
  | reference (text : String)
  /-- A variable, without its dollar sign. -/
  | var (name : String)
  /-- A comment up to the end of its line, hash sign included. -/
  | lineComment (text : String)
  /-- A bracketed comment, without its brackets. -/
  | blockComment (text : String)
  | newline
  | invalid (fault : Fault)
  deriving DecidableEq

namespace Kind

/-- The name of the kind in a listing of tokens. -/
def label : Kind → String
  | keyword word => word.label
  | symbol s => s.label
  | integer _ => "Integer"
  | float _ => "Float"
  | singleQuoted _ => "SingleQuoted"
  | doubleQuoted _ => "DoubleQuoted"
  | name _ => "Name"
  | reference _ => "ClassRef"
  | var _ => "Variable"
  | lineComment _ => "LineComment"
  | blockComment _ => "BlockComment"
  | newline => "Newline"
  | invalid _ => "Error"

/-- The text a token carries besides its kind. -/
def payload : Kind → Option String
  | integer s | float s | singleQuoted s | doubleQuoted s | name s | reference s
  | var s | lineComment s | blockComment s => some s
  | keyword _ | symbol _ | newline | invalid _ => none

/-- How a message refers to a token. -/
def display : Kind → String
  | keyword word => word.text
  | symbol s => s.text
  | integer s => "integer `" ++ s ++ "`"
  | float s => "float `" ++ s ++ "`"
  | singleQuoted s => "string '" ++ s ++ "'"
  | doubleQuoted s => "string \"" ++ s ++ "\""
  | name s => "name `" ++ s ++ "`"
  | reference s => "reference `" ++ s ++ "`"
  | var s => "variable `$" ++ s ++ "`"
  | lineComment _ => "comment"
  | blockComment _ => "block comment"
  | newline => "newline"
  | invalid _ => "invalid input"

def isComment : Kind → Bool
  | lineComment _ | blockComment _ => true
  | _ => false

/-- A token may touch only a token that is neither a comment nor a line break. -/
def canBeTouched : Kind → Bool
  | lineComment _ | blockComment _ | newline => false
  | _ => true

end Kind

/-! ## tokens -/

/-- A token at its place.  `touching` says that it begins exactly where the
token before it ends, that one being neither a comment nor a line break. -/
structure Token (σ : Type) where
  kind : Kind
  span : σ
  touching : Bool
  deriving DecidableEq

/-- The same token at the place `f` gives. -/
def Token.map {σ τ : Type} (f : σ → τ) (t : Token σ) : Token τ :=
  ⟨t.kind, f t.span, t.touching⟩

/-- A fault at the offset of the token that has it. -/
structure LexicalError where
  fault : Fault
  position : Nat
  deriving DecidableEq

namespace LexicalError

/-- The fault of an invalid token, at the token's start. -/
def ofToken? (t : Token Span) : Option LexicalError :=
  match t.kind with
  | .invalid fault => some ⟨fault, t.span.start⟩
  | _ => none

def message (e : LexicalError) : String :=
  match e.fault with
  | .unexpectedCharacter c =>
    "Unexpected character '" ++ c.toString ++ "' at position " ++ toString e.position
  | .unterminatedString =>
    "Unterminated string literal starting at position " ++ toString e.position
  | .unterminatedComment =>
    "Unterminated block comment starting at position " ++ toString e.position
      ++ " - expected closing '*/'"

end LexicalError

end CallGrammar
