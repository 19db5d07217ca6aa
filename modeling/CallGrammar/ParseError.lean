import CallGrammar.Token

/-!
# CallGrammar.ParseError

What can be wrong with a sequence of tokens.  Each error is its cause, at the
place it is reported for; the wording is made from the cause.
-/

namespace CallGrammar

/-! ## constructs -/

/-- The constructs that have a closing token. -/
inductive Construct where
  | argumentList | lambdaParameters | access | array | parentheses | hash
  | ifBody | elseBody | unlessBody | lambdaBody
  deriving DecidableEq

namespace Construct

def name : Construct → String
  | argumentList => "argument list"
  | lambdaParameters => "lambda parameter list"
  | access => "access"
  | array => "array"
  | parentheses => "parenthesized expression"
  | hash => "hash"
  | ifBody => "if body"
  | elseBody => "else body"
  | unlessBody => "unless body"
  | lambdaBody => "lambda body"

def closer : Construct → Symbol
  | argumentList | parentheses => .closeParen
  | access | array => .closeBracket
  | hash | ifBody | elseBody | unlessBody | lambdaBody => .closeBrace
  | lambdaParameters => .pipe

end Construct

/-! ## expectations -/

/-- What the grammar asks for at a token. -/
inductive Expectation where
  | symbol (symbol : Symbol)
  | statement | expression | name | methodName | lambda | parameter
  | commaOrPipe | commaOrParen
  deriving DecidableEq

namespace Expectation

def text : Expectation → String
  | symbol s => "'" ++ s.text ++ "'"
  | statement => "a statement"
  | expression => "an expression"
  | name => "a name"
  | methodName => "a method name after '.'"
  | lambda => "a lambda ('|' or '||')"
  | parameter => "a lambda parameter"
  | commaOrPipe => "',' or '|'"
  | commaOrParen => "',' or ')'"

end Expectation

/-! ## errors -/

/-- Why a sequence of tokens has no tree. -/
inductive ParseError (σ : Type) where
  /-- A comma where no element of a list ends. -/
  | strayComma (span : σ)
  /-- Several arguments without parentheses, for a function that does not take
  them. -/
  | needsParentheses (name : String) (span : σ)
  /-- Another token than the grammar asks for, or the end of the input. -/
  | unexpected (expected : Expectation) (found : Option Kind) (span : σ)
  /-- Access brackets without a key. -/
  | emptyAccess (span : σ)
  /-- An assignment sign after something that is no target. -/
  | unassignable (span : σ)
  /-- The input ends inside a construct; the place is that of its opener. -/
  | unterminated (construct : Construct) (span : σ)
  deriving DecidableEq

namespace ParseError

variable {σ : Type}

/-- The classes that errors fall into. -/
inductive Category where
  | illegalCommaList | illegalArgumentList | unexpectedToken | unterminatedConstruct
  deriving DecidableEq

def category : ParseError σ → Category
  | strayComma _ => .illegalCommaList
  | needsParentheses _ _ => .illegalArgumentList
  | unexpected _ _ _ | emptyAccess _ | unassignable _ => .unexpectedToken
  | unterminated _ _ => .unterminatedConstruct

def span : ParseError σ → σ
  | strayComma s | needsParentheses _ s | unexpected _ _ s | emptyAccess s | unassignable s
  | unterminated _ s => s

/-- How a message refers to the token under the cursor. -/
def foundText : Option Kind → String
  | none => "end of input"
  | some (.invalid .unterminatedString) => "an unterminated string"
  | some (.invalid .unterminatedComment) => "an unterminated block comment"
  | some (.invalid (.unexpectedCharacter c)) => "invalid character '" ++ c.toString ++ "'"
  | some kind => kind.display

def unexpectedText (expected found : String) : String :=
  "unexpected token: expected " ++ expected ++ ", found " ++ found

/-- What was asked for, where something else was found. -/
def expectedText? : ParseError σ → Option String
  | unexpected expected _ _ => some expected.text
  | emptyAccess _ => some "an access key"
  | unassignable _ => some "a variable or access expression before '='"
  | _ => none

def message : ParseError σ → String
  | strayComma _ => "illegal comma separated argument list"
  | needsParentheses name _ =>
    "attempt to pass argument list to the function '" ++ name
      ++ "' which cannot be called without parentheses"
  | unexpected expected found _ => unexpectedText expected.text (foundText found)
  | emptyAccess _ => unexpectedText "an access key" "']'"
  | unassignable _ => unexpectedText "a variable or access expression before '='" "="
  | unterminated construct _ =>
    "unterminated " ++ construct.name ++ ": expected '" ++ construct.closer.text ++ "'"

/-- The stable code of an error's class. -/
def Category.code : Category → String
  | illegalCommaList => "egram::parse::illegal_comma"
  | illegalArgumentList => "egram::parse::illegal_argument_list"
  | unexpectedToken => "egram::parse::unexpected_token"
  | unterminatedConstruct => "egram::parse::unterminated"

/-- Advice on errors of a class. -/
def Category.help : Category → Option String
  | illegalCommaList =>
    some "commas only separate call arguments; remove the extra comma or add parentheses"
  | illegalArgumentList =>
    some "wrap the arguments in parentheses, or add the function to `parser.statement_calls`"
  | unexpectedToken => none
  | unterminatedConstruct => some "the input ended before this was closed"

def code (e : ParseError σ) : String := e.category.code

def help (e : ParseError σ) : Option String := e.category.help

end ParseError

end CallGrammar
