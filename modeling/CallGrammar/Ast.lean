import CallGrammar.Token

/-!
# CallGrammar.Ast

Syntax trees: statements and expressions are separate types, so an invocation,
whose result is dropped, never stands inside an expression.

Every node carries its place, of any type `σ`.  Nothing else in a tree depends
on `σ`: two trees with one shape at different places differ in this parameter
alone.
-/

namespace CallGrammar

/-! ## operators and literals -/

inductive BinaryOp where
  | add | sub | mul | div | mod
  | equal | notEqual | less | greater | lessEqual | greaterEqual
  | and | or | elem
  deriving DecidableEq

namespace BinaryOp

/-- How tightly the operator binds; of two levels the higher binds first, and
operators of one level group to the left. -/
def level : BinaryOp → Nat
  | or => 0
  | and => 1
  | equal | notEqual | less | greater | lessEqual | greaterEqual => 2
  | elem => 3
  | add | sub => 4
  | mul | div | mod => 5

/-- The operator that a token is between two operands. -/
def ofKind? : Kind → Option BinaryOp
  | .keyword .orWord => some or
  | .keyword .andWord => some and
  | .keyword .inWord => some elem
  | .symbol .equal => some equal
  | .symbol .notEqual => some notEqual
  | .symbol .less => some less
  | .symbol .greater => some greater
  | .symbol .lessEqual => some lessEqual
  | .symbol .greaterEqual => some greaterEqual
  | .symbol .plus => some add
  | .symbol .minus => some sub
  | .symbol .star => some mul
  | .symbol .slash => some div
  | .symbol .percent => some mod
  | _ => none

/-- The sign of the operator in a dump. -/
def sign : BinaryOp → String
  | add => "+"
  | sub => "-"
  | mul => "*"
  | div => "/"
  | mod => "%"
  | equal => "=="
  | notEqual => "!="
  | less => "<"
  | greater => ">"
  | lessEqual => "<="
  | greaterEqual => ">="
  | and => "&&"
  | or => "||"
  | elem => "in"

/-- The name of the operator in an outline. -/
def label : BinaryOp → String
  | add => "Add"
  | sub => "Sub"
  | mul => "Mul"
  | div => "Div"
  | mod => "Mod"
  | equal => "Eq"
  | notEqual => "NotEq"
  | less => "Lt"
  | greater => "Gt"
  | lessEqual => "LtEq"
  | greaterEqual => "GtEq"
  | and => "And"
  | or => "Or"
  | elem => "In"

end BinaryOp

inductive UnaryOp where
  | neg | not
  deriving DecidableEq

namespace UnaryOp

/-- The operator that a token is before its operand. -/
def ofKind? : Kind → Option UnaryOp
  | .symbol .minus => some neg
  | .symbol .bang => some not
  | _ => none

/-- The sign of the operator in a dump. -/
def sign : UnaryOp → String
  | neg => "-"
  | not => "!"

/-- The name of the operator in an outline. -/
def label : UnaryOp → String
  | neg => "Neg"
  | not => "Not"

end UnaryOp

/-- A literal value; numbers keep the text they were written with. -/
inductive Literal where
  | integer (text : String)
  | float (text : String)
  | string (value : String)
  | boolean (value : Bool)
  | undef
  deriving DecidableEq

/-- The literal that a token is. -/
def Literal.ofKind? : Kind → Option Literal
  | .integer s => some (integer s)
  | .float s => some (float s)
  | .singleQuoted s | .doubleQuoted s => some (string s)
  | .keyword .trueWord => some (boolean true)
  | .keyword .falseWord => some (boolean false)
  | .keyword .undefWord => some undef
  | _ => none

/-! ## trees -/

/-- A name at its place: of a function, a method or a lambda parameter. -/
structure Ident (σ : Type) where
  name : String
  span : σ
  deriving DecidableEq

/-- Whether the first branch is taken when the condition holds or when not. -/
inductive Sense where
  | ifTrue | unlessTrue
  deriving DecidableEq

mutual

/-- A value. -/
inductive Expr (σ : Type) where
  /-- A name with an argument list in parentheses. -/
  | call (span : σ) (callee : Ident σ) (args : List (Expr σ)) (lambda : Option (Lambda σ))
  /-- A method of a receiver; without parentheses it has no arguments. -/
  | method (span : σ) (receiver : Expr σ) (callee : Ident σ) (args : List (Expr σ))
      (lambda : Option (Lambda σ))
  /-- A name without call syntax. -/
  | word (span : σ) (name : String)
  | reference (span : σ) (name : String)
  | var (span : σ) (name : String)
  | literal (span : σ) (value : Literal)
  | array (span : σ) (items : List (Expr σ))
  | hash (span : σ) (entries : List (Entry σ))
  /-- A target with keys in brackets that touch it. -/
  | access (span : σ) (target : Expr σ) (keys : List (Expr σ))
  | binary (span : σ) (op : BinaryOp) (left right : Expr σ)
  | unary (span : σ) (op : UnaryOp) (operand : Expr σ)

/-- A key of a hash and its value. -/
structure Entry (σ : Type) where
  key : Expr σ
  value : Expr σ

/-- A parameter list with a body, passed to a call. -/
structure Lambda (σ : Type) where
  span : σ
  params : List (Ident σ)
  body : Block σ

/-- A sequence of statements. -/
structure Block (σ : Type) where
  span : σ
  stmts : List (Stmt σ)

/-- What is executed for its effect. -/
inductive Stmt (σ : Type) where
  /-- A call whose result is dropped. -/
  | invoke (span : σ) (callee : Ident σ) (args : List (Expr σ)) (lambda : Option (Lambda σ))
  | assign (span : σ) (target value : Expr σ)
  /-- A chain of conditions is nested: the next link is the only statement of
  the branch before it. -/
  | conditional (span : σ) (sense : Sense) (condition : Expr σ) (thenBranch : Block σ)
      (elseBranch : Option (Block σ))
  | expr (span : σ) (value : Expr σ)

end

/-- A whole source unit. -/
structure Program (σ : Type) where
  body : Block σ

namespace Expr

variable {σ : Type}

def span : Expr σ → σ
  | call s _ _ _ | method s _ _ _ _ | word s _ | reference s _ | var s _ | literal s _
  | array s _ | hash s _ | access s _ _ | binary s _ _ _ | unary s _ _ => s

/-- The same expression at another place. -/
def withSpan (s : σ) : Expr σ → Expr σ
  | call _ callee args lambda => call s callee args lambda
  | method _ receiver callee args lambda => method s receiver callee args lambda
  | word _ name => word s name
  | reference _ name => reference s name
  | var _ name => var s name
  | literal _ value => literal s value
  | array _ items => array s items
  | hash _ entries => hash s entries
  | access _ target keys => access s target keys
  | binary _ op left right => binary s op left right
  | unary _ op operand => unary s op operand

/-- Whether the expression may stand before an assignment sign. -/
def isAssignable : Expr σ → Bool
  | var _ _ | access _ _ _ => true
  | _ => false

end Expr

/-- The place of a statement. -/
def Stmt.span {σ : Type} : Stmt σ → σ
  | invoke s _ _ _ | assign s _ _ | conditional s _ _ _ _ | expr s _ => s

end CallGrammar
