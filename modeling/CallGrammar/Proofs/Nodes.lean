import CallGrammar.Proofs.Phrase

/-!
# CallGrammar.Proofs.Nodes

A walk through a tree in the order of its source.  It meets each statement before
what the statement consists of, and each word that the tree keeps: names with what
they stand for, references, variables, literals and operators.
-/

namespace CallGrammar

variable {σ τ : Type}

/-! ## words -/

/-- The token of the operator. -/
def BinaryOp.kind : BinaryOp → Kind
  | add => .symbol .plus
  | sub => .symbol .minus
  | mul => .symbol .star
  | div => .symbol .slash
  | mod => .symbol .percent
  | equal => .symbol .equal
  | notEqual => .symbol .notEqual
  | less => .symbol .less
  | greater => .symbol .greater
  | lessEqual => .symbol .lessEqual
  | greaterEqual => .symbol .greaterEqual
  | and => .keyword .andWord
  | or => .keyword .orWord
  | elem => .keyword .inWord

/-- The token of the sign. -/
def UnaryOp.kind : UnaryOp → Kind
  | neg => .symbol .minus
  | not => .symbol .bang

/-- An operator is read from its kind. -/
@[simp] theorem BinaryOp.ofKind?_kind (op : BinaryOp) : ofKind? op.kind = some op := by
  cases op <;> rfl

@[simp] theorem UnaryOp.ofKind?_kind (op : UnaryOp) : ofKind? op.kind = some op := by
  cases op <;> rfl

/-- A kind that is read as an operator is the one of it. -/
theorem BinaryOp.kind_of_ofKind? {k : Kind} {op : BinaryOp} (h : ofKind? k = some op) :
    op.kind = k := by
  unfold ofKind? at h
  split at h <;> cases h <;> rfl

theorem UnaryOp.kind_of_ofKind? {k : Kind} {op : UnaryOp} (h : ofKind? k = some op) :
    op.kind = k := by
  unfold ofKind? at h
  split at h <;> cases h <;> rfl

/-- A word of a source that a tree keeps.  A string does not keep its quotes; a
sign is kept by its token. -/
inductive Word where
  | name (text : String)
  | reference (text : String)
  | var (name : String)
  | literal (value : Literal)
  | operator (sign : Kind)
  deriving DecidableEq

/-- The word that a token is, if it is one that trees keep. -/
def Word.ofKind? : Kind → Option Word
  | .name text => some (name text)
  | .reference text => some (reference text)
  | .var text => some (var text)
  | k =>
    if (BinaryOp.ofKind? k).isSome || (UnaryOp.ofKind? k).isSome then some (operator k)
    else (Literal.ofKind? k).map literal

/-! ## nodes -/

/-- What a name stands for in a tree. -/
inductive Role (σ : Type) where
  /-- The callee of a statement that is a call. -/
  | invoked (args : List (Expr σ)) (lambda : Option (Lambda σ))
  /-- The callee of a call whose value is used. -/
  | called (args : List (Expr σ)) (lambda : Option (Lambda σ))
  /-- A method, after the receiver. -/
  | method (args : List (Expr σ)) (lambda : Option (Lambda σ))
  /-- A bare word. -/
  | word

/-- What the walk meets. -/
inductive Node (σ : Type) where
  | stmt (stmt : Stmt σ)
  | name (text : String) (role : Role σ)
  | leaf (word : Word)

namespace Node

def stmt? : Node σ → Option (Stmt σ)
  | stmt s => some s
  | name _ _ | leaf _ => none

def name? : Node σ → Option (String × Role σ)
  | name text role => some (text, role)
  | stmt _ | leaf _ => none

def word? : Node σ → Option Word
  | stmt _ => none
  | name text _ => some (.name text)
  | leaf word => some word

end Node

/-! ## the walk -/

def Ident.var (p : Ident σ) : Node σ := .leaf (.var p.name)

mutual

def Expr.nodes : Expr σ → List (Node σ)
  | .call _ callee args lambda =>
    .name callee.name (.called args lambda) :: (exprsNodes args ++ lambdaNodes lambda)
  | .method _ receiver callee args lambda =>
    receiver.nodes ++ .name callee.name (.method args lambda)
      :: (exprsNodes args ++ lambdaNodes lambda)
  | .word _ name => [.name name .word]
  | .reference _ name => [.leaf (.reference name)]
  | .var _ name => [.leaf (.var name)]
  | .literal _ value => [.leaf (.literal value)]
  | .array _ items => exprsNodes items
  | .hash _ entries => entriesNodes entries
  | .access _ target keys => target.nodes ++ exprsNodes keys
  | .binary _ op left right => left.nodes ++ .leaf (.operator op.kind) :: right.nodes
  | .unary _ op operand => .leaf (.operator op.kind) :: operand.nodes

def exprsNodes : List (Expr σ) → List (Node σ)
  | [] => []
  | e :: es => e.nodes ++ exprsNodes es

def Entry.nodes : Entry σ → List (Node σ)
  | ⟨key, value⟩ => key.nodes ++ value.nodes

def entriesNodes : List (Entry σ) → List (Node σ)
  | [] => []
  | e :: es => e.nodes ++ entriesNodes es

def Lambda.nodes : Lambda σ → List (Node σ)
  | ⟨_, params, body⟩ => params.map Ident.var ++ body.nodes

def lambdaNodes : Option (Lambda σ) → List (Node σ)
  | none => []
  | some lambda => lambda.nodes

def Block.nodes : Block σ → List (Node σ)
  | ⟨_, stmts⟩ => stmtsNodes stmts

def blockNodes : Option (Block σ) → List (Node σ)
  | none => []
  | some block => block.nodes

/-- What the statement consists of, without the statement itself. -/
def Stmt.inside : Stmt σ → List (Node σ)
  | .invoke _ callee args lambda =>
    .name callee.name (.invoked args lambda) :: (exprsNodes args ++ lambdaNodes lambda)
  | .assign _ target value => target.nodes ++ value.nodes
  | .conditional _ _ condition thenBranch elseBranch =>
    condition.nodes ++ (thenBranch.nodes ++ blockNodes elseBranch)
  | .expr _ value => value.nodes

def stmtsNodes : List (Stmt σ) → List (Node σ)
  | [] => []
  | s :: ss => .stmt s :: (s.inside ++ stmtsNodes ss)

end

namespace Program

def nodes (p : Program σ) : List (Node σ) := p.body.nodes

/-- All statements, those inside blocks and lambdas included. -/
def statements (p : Program σ) : List (Stmt σ) := p.nodes.filterMap Node.stmt?

/-- The names, each with what it stands for. -/
def names (p : Program σ) : List (String × Role σ) := p.nodes.filterMap Node.name?

/-- The words that the tree keeps. -/
def words (p : Program σ) : List Word := p.nodes.filterMap Node.word?

end Program

@[simp] theorem Expr.nodes_withSpan (s : σ) (e : Expr σ) : (e.withSpan s).nodes = e.nodes := by
  cases e <;> simp only [Expr.withSpan, Expr.nodes]

/-! ## nodes of phrases -/

/-- The nodes of what a phrase is read as; a single statement is left out. -/
def Phrase.nodes : (p : Phrase σ) → p.Value → List (Node σ)
  | parameters _ => List.map Ident.var
  | expression _ | operators _ _ | operand | suffixes _ | primary | callOrWord | callOf _
  | continued _ => Expr.nodes
  | elements _ | arguments | optionalArguments | bareArguments | moreBareArguments => exprsNodes
  | entries => entriesNodes
  | optionalLambda => lambdaNodes
  | lambda | lambdaBody _ _ => Lambda.nodes
  | block _ => Block.nodes
  | statements => stmtsNodes
  | statement | valueStatement _ | conditional _ => Stmt.inside
  | alternative _ => blockNodes
  | callable => fun
    | .statement stmt => stmt.inside
    | .value expr => expr.nodes
  | program => Program.nodes

end CallGrammar
