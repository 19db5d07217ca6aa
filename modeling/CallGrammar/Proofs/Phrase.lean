import CallGrammar.Grammar
import CallGrammar.Proofs.Places

/-!
# CallGrammar.Proofs.Phrase

The functions of the grammar as one family.  A `Phrase` is one of them with its
arguments, `Phrase.Value` what it reads, and `Phrase.parse` the function itself,
so a fact about all of them is one statement.
-/

namespace CallGrammar

variable {σ τ : Type}

/-- A kind of phrase, with what has been read of it already. -/
inductive Phrase (σ : Type) where
  | parameters (opener : σ)
  | expression (floor : Nat)
  | operators (floor : Nat) (left : Expr σ)
  | operand
  | suffixes (target : Expr σ)
  | primary
  | elements (construct : Construct)
  | entries
  | arguments
  | optionalArguments
  | bareArguments
  | moreBareArguments
  | callOrWord
  | callOf (callee : Ident σ)
  | optionalLambda
  | lambda
  | lambdaBody (opener : σ) (params : List (Ident σ))
  | block (construct : Construct)
  | statements
  | statement
  | valueStatement (expr : Expr σ)
  | conditional (sense : Sense)
  | alternative (sense : Sense)
  | callable
  | continued (first : Expr σ)
  | program

namespace Phrase

/-- What a phrase is read as. -/
@[reducible] def Value : Phrase σ → Type
  | parameters _ => List (Ident σ)
  | expression _ | operators _ _ | operand | suffixes _ | primary | callOrWord | callOf _
  | continued _ => Expr σ
  | elements _ | arguments | optionalArguments | bareArguments | moreBareArguments =>
    List (Expr σ)
  | entries => List (Entry σ)
  | optionalLambda => Option (Lambda σ)
  | lambda | lambdaBody _ _ => Lambda σ
  | block _ => Block σ
  | statements => List (Stmt σ)
  | statement | valueStatement _ | conditional _ => Stmt σ
  | alternative _ => Option (Block σ)
  | callable => Grammar.Callable σ
  | program => Program σ

/-- The function of the grammar that reads the phrase. -/
def parse [Location σ] : (p : Phrase σ) → Nat → Parse σ p.Value
  | parameters opener => Grammar.parameters opener
  | expression floor => Grammar.expression floor
  | operators floor left => Grammar.operators floor left
  | operand => Grammar.operand
  | suffixes target => Grammar.suffixes target
  | primary => Grammar.primary
  | elements construct => Grammar.elements construct
  | entries => Grammar.entries
  | arguments => Grammar.arguments
  | optionalArguments => Grammar.optionalArguments
  | bareArguments => Grammar.bareArguments
  | moreBareArguments => Grammar.moreBareArguments
  | callOrWord => Grammar.callOrWord
  | callOf callee => Grammar.callOf callee
  | optionalLambda => Grammar.optionalLambda
  | lambda => Grammar.lambda
  | lambdaBody opener params => Grammar.lambdaBody opener params
  | block construct => Grammar.block construct
  | statements => Grammar.statements
  | statement => Grammar.statement
  | valueStatement expr => Grammar.valueStatement expr
  | conditional sense => Grammar.conditional sense
  | alternative sense => Grammar.alternative sense
  | callable => Grammar.callable
  | continued first => Grammar.continued first
  | program => Grammar.program

/-- Without calls left no phrase has an answer. -/
theorem parse_zero [Location σ] (p : Phrase σ) : p.parse 0 = Parse.exhausted := by
  cases p <;> rfl

end Phrase

/-- The branches of a conditional are in braces. -/
theorem Grammar.closer_branchConstruct (sense : Sense) :
    (branchConstruct sense).closer = .closeBrace := by
  cases sense <;> rfl

/-! ## phrases at other places -/

def Grammar.Callable.map (f : σ → τ) : Callable σ → Callable τ
  | .statement stmt => .statement (stmt.map f)
  | .value expr => .value (expr.map f)

namespace Phrase

def map (f : σ → τ) : Phrase σ → Phrase τ
  | parameters opener => parameters (f opener)
  | expression floor => expression floor
  | operators floor left => operators floor (left.map f)
  | operand => operand
  | suffixes target => suffixes (target.map f)
  | primary => primary
  | elements construct => elements construct
  | entries => entries
  | arguments => arguments
  | optionalArguments => optionalArguments
  | bareArguments => bareArguments
  | moreBareArguments => moreBareArguments
  | callOrWord => callOrWord
  | callOf callee => callOf (callee.map f)
  | optionalLambda => optionalLambda
  | lambda => lambda
  | lambdaBody opener params => lambdaBody (f opener) (params.map (Ident.map f))
  | block construct => block construct
  | statements => statements
  | statement => statement
  | valueStatement expr => valueStatement (expr.map f)
  | conditional sense => conditional sense
  | alternative sense => alternative sense
  | callable => callable
  | continued first => continued (first.map f)
  | program => program

/-- The value of a phrase, moved with the phrase. -/
def mapValue (f : σ → τ) : (p : Phrase σ) → p.Value → (p.map f).Value
  | parameters _ => List.map (Ident.map f)
  | expression _ | operators _ _ | operand | suffixes _ | primary | callOrWord | callOf _
  | continued _ => Expr.map f
  | elements _ | arguments | optionalArguments | bareArguments | moreBareArguments =>
    mapExprs f
  | entries => mapEntries f
  | optionalLambda => mapLambda f
  | lambda | lambdaBody _ _ => Lambda.map f
  | block _ => Block.map f
  | statements => mapStmts f
  | statement | valueStatement _ | conditional _ => Stmt.map f
  | alternative _ => mapBlock f
  | callable => Grammar.Callable.map f
  | program => Program.map f

end Phrase

end CallGrammar
