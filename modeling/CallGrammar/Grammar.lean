import CallGrammar.Cursor

/-!
# CallGrammar.Grammar

The grammar, one function per kind of phrase.  Its rules in short:

1. a name before a parenthesis is called; at the start of a statement, and
   with nothing after the call, it is invoked;
2. a name at the start of a statement is also invoked on what follows it, if
   that can begin an argument: a name, a reference, a variable, a literal, an
   exclamation mark, or a bracket that does not touch the name;
3. any other name is a bare word, or the name of a method after a dot;
4. binary operators group by level, then to the left; prefix signs bind
   tighter; suffixes (methods, and access brackets that touch) tightest;
5. a comma only separates elements, and may follow the last one in brackets;
6. line breaks end statements; they do not count in brackets, nor after a
   binary operator, a comma, an assignment sign, or before `elsif` and `else`.

Each function takes a bound on the depth of nested calls as its last argument;
`Fuel` shows which bound is always enough.
-/

namespace CallGrammar.Grammar

open Parse

variable {σ : Type}

/-! ## phrases -/

/-- What a name in statement position turns out to be. -/
inductive Callable (σ : Type) where
  | statement (stmt : Stmt σ)
  | value (expr : Expr σ)

/-- Whether a token can begin an argument without parentheses, where brackets
count if they do not touch the name. -/
def beginsArgument : Option Kind → Bool → Bool
  | some (.name _), _ | some (.reference _), _ | some (.var _), _ | some (.integer _), _
  | some (.float _), _ | some (.singleQuoted _), _ | some (.doubleQuoted _), _
  | some (.keyword .trueWord), _ | some (.keyword .falseWord), _
  | some (.keyword .undefWord), _ | some (.symbol .bang), _ => true
  | some (.symbol .openBracket), touching => !touching
  | _, _ => false

/-- The construct that the first branch of a conditional is. -/
def branchConstruct : Sense → Construct
  | .ifTrue => .ifBody
  | .unlessTrue => .unlessBody

/-- Parameters up to the closing bar, the cursor past the opening one at
`opener`. -/
def parameters (opener : σ) : Nat → Parse σ (List (Ident σ))
  | 0 => exhausted
  | fuel + 1 => do
    skipNewlines
    match ← peek with
    | some (.symbol .pipe) => pure []
    | some (.var name) =>
      let here ← place
      advance
      skipNewlines
      match ← peek with
      | some (.symbol .comma) =>
        advance
        let rest ← parameters opener fuel
        pure (⟨name, here⟩ :: rest)
      | some (.symbol .pipe) => pure [⟨name, here⟩]
      | none => fail (.unterminated .lambdaParameters opener)
      | some _ => unexpected .commaOrPipe
    | none => fail (.unterminated .lambdaParameters opener)
    | some _ => unexpected .parameter

variable [Location σ]

mutual

-- expressions

/-- An expression whose operators outside brackets are of level `floor` or
higher. -/
def expression (floor : Nat) : Nat → Parse σ (Expr σ)
  | 0 => exhausted
  | fuel + 1 => do
    let left ← operand fuel
    operators floor left fuel

/-- Operators of level `floor` or higher and their right operands, after the
left operand `left`. -/
def operators (floor : Nat) (left : Expr σ) : Nat → Parse σ (Expr σ)
  | 0 => exhausted
  | fuel + 1 => do
    match (← peek).bind BinaryOp.ofKind? with
    | some op =>
      if op.level < floor then pure left
      else
        advance
        skipNewlines
        let right ← expression (op.level + 1) fuel
        operators floor (.binary (Location.merge left.span right.span) op left right) fuel
    | none => pure left

/-- Prefix signs, a primary and its suffixes. -/
def operand : Nat → Parse σ (Expr σ)
  | 0 => exhausted
  | fuel + 1 => do
    let here ← place
    match (← peek).bind UnaryOp.ofKind? with
    | some op =>
      advance
      let inner ← operand fuel
      pure (.unary (Location.merge here inner.span) op inner)
    | none =>
      let inner ← primary fuel
      suffixes inner fuel

/-- Methods and access brackets after `target`. -/
def suffixes (target : Expr σ) : Nat → Parse σ (Expr σ)
  | 0 => exhausted
  | fuel + 1 => do
    match ← peek with
    | some (.symbol .dot) =>
      advance
      let callee ← name .methodName
      let args ← optionalArguments fuel
      let lambda ← optionalLambda fuel
      let whole ← since target.span
      suffixes (.method whole target callee args lambda) fuel
    | some (.symbol .openBracket) =>
      if ← touching then
        let opener ← place
        advance
        let keys ← elements .access fuel
        let closer ← close .access opener
        if keys.isEmpty then fail (.emptyAccess closer)
        else suffixes (.access (Location.merge target.span closer) target keys) fuel
      else pure target
    | _ => pure target

/-- A literal, a variable, a name, or anything in brackets. -/
def primary : Nat → Parse σ (Expr σ)
  | 0 => exhausted
  | fuel + 1 => do
    let here ← place
    match ← peek with
    | some (.var name) => advance; pure (.var here name)
    | some (.reference name) => advance; pure (.reference here name)
    | some (.name _) => callOrWord fuel
    | some (.symbol .openBracket) =>
      advance
      let items ← elements .array fuel
      let closer ← close .array here
      pure (.array (Location.merge here closer) items)
    | some (.symbol .openBrace) =>
      advance
      skipNewlines
      let found ← entries fuel
      let closer ← close .hash here
      pure (.hash (Location.merge here closer) found)
    | some (.symbol .openParen) =>
      advance
      skipNewlines
      let inner ← expression 0 fuel
      skipNewlines
      match ← peek with
      | some (.symbol .comma) => strayComma
      | _ =>
        let closer ← close .parentheses here
        pure (inner.withSpan (Location.merge here closer))
    | found =>
      match found.bind Literal.ofKind? with
      | some value => advance; pure (.literal here value)
      | none => unexpected .expression

-- lists

/-- The elements of a list in brackets, up to its closer; the cursor past the
opener. -/
def elements (construct : Construct) : Nat → Parse σ (List (Expr σ))
  | 0 => exhausted
  | fuel + 1 => do
    skipNewlines
    match ← peek with
    | none => pure []
    | some (.symbol .comma) => strayComma
    | some kind =>
      if kind = .symbol construct.closer then pure []
      else
        let first ← expression 0 fuel
        skipNewlines
        match ← peek with
        | some (.symbol .comma) =>
          advance
          let rest ← elements construct fuel
          pure (first :: rest)
        | _ => pure [first]

/-- The entries of a hash, up to its closer. -/
def entries : Nat → Parse σ (List (Entry σ))
  | 0 => exhausted
  | fuel + 1 => do
    match ← peek with
    | none => pure []
    | some (.symbol .closeBrace) => pure []
    | some (.symbol .comma) => strayComma
    | some _ =>
      let key ← expression 0 fuel
      skipNewlines
      let _ ← symbol .arrow
      skipNewlines
      let value ← expression 0 fuel
      skipNewlines
      match ← peek with
      | some (.symbol .comma) =>
        advance
        skipNewlines
        let rest ← entries fuel
        pure (⟨key, value⟩ :: rest)
      | _ => pure [⟨key, value⟩]

/-- Arguments in parentheses. -/
def arguments : Nat → Parse σ (List (Expr σ))
  | 0 => exhausted
  | fuel + 1 => do
    let opener ← symbol .openParen
    skipNewlines
    let args ← enclosedArguments opener fuel
    let _ ← symbol .closeParen
    pure args

/-- Arguments up to the closing parenthesis, for which the loop looks in front of
each argument and behind it; the cursor past the line breaks after the opening
one at `opener`. -/
def enclosedArguments (opener : σ) : Nat → Parse σ (List (Expr σ))
  | 0 => exhausted
  | fuel + 1 => do
    match ← peek with
    | none => fail (.unterminated .argumentList opener)
    | some (.symbol .closeParen) => pure []
    | some (.symbol .comma) => strayComma
    | some _ =>
      let first ← expression 0 fuel
      skipNewlines
      match ← peek with
      | none => fail (.unterminated .argumentList opener)
      | some (.symbol .closeParen) => pure [first]
      | some (.symbol .comma) =>
        advance
        skipNewlines
        let rest ← enclosedArguments opener fuel
        pure (first :: rest)
      | some _ => unexpected .commaOrParen

/-- Arguments in parentheses, or none. -/
def optionalArguments : Nat → Parse σ (List (Expr σ))
  | 0 => exhausted
  | fuel + 1 => do
    match ← peek with
    | some (.symbol .openParen) => arguments fuel
    | _ => pure []

/-- Arguments without parentheses: at least one. -/
def bareArguments : Nat → Parse σ (List (Expr σ))
  | 0 => exhausted
  | fuel + 1 => do
    let first ← expression 0 fuel
    let rest ← moreBareArguments fuel
    pure (first :: rest)

/-- The arguments that follow, each after a comma. -/
def moreBareArguments : Nat → Parse σ (List (Expr σ))
  | 0 => exhausted
  | fuel + 1 => do
    match ← peek with
    | some (.symbol .comma) =>
      let comma ← place
      advance
      skipNewlines
      match ← peek with
      | some (.symbol .comma) => strayComma
      | none | some (.symbol .semicolon) | some (.symbol .closeBrace) => fail (.strayComma comma)
      | some _ =>
        let first ← expression 0 fuel
        let rest ← moreBareArguments fuel
        pure (first :: rest)
    | _ => pure []

-- calls

/-- A name used as a value: a call, or a bare word. -/
def callOrWord : Nat → Parse σ (Expr σ)
  | 0 => exhausted
  | fuel + 1 => do
    let callee ← name .name
    match ← peek with
    | some (.symbol .openParen) => callOf callee fuel
    | _ => pure (.word callee.span callee.name)

/-- The arguments and the lambda of a call. -/
def callOf (callee : Ident σ) : Nat → Parse σ (Expr σ)
  | 0 => exhausted
  | fuel + 1 => do
    let args ← arguments fuel
    let lambda ← optionalLambda fuel
    let whole ← since callee.span
    pure (.call whole callee args lambda)

/-- A lambda if there is one. -/
def optionalLambda : Nat → Parse σ (Option (Lambda σ))
  | 0 => exhausted
  | fuel + 1 => do
    match ← peek with
    | some (.symbol .pipe) | some (.symbol .pipePipe) =>
      let found ← lambda fuel
      pure (some found)
    | _ => pure none

/-- Parameters between bars, and a body. -/
def lambda : Nat → Parse σ (Lambda σ)
  | 0 => exhausted
  | fuel + 1 => do
    let here ← place
    match ← peek with
    | some (.symbol .pipePipe) =>
      advance
      lambdaBody here [] fuel
    | some (.symbol .pipe) =>
      advance
      let params ← parameters here fuel
      let _ ← symbol .pipe
      lambdaBody here params fuel
    | _ => unexpected .lambda

/-- The body of a lambda with these parameters. -/
def lambdaBody (opener : σ) (params : List (Ident σ)) : Nat → Parse σ (Lambda σ)
  | 0 => exhausted
  | fuel + 1 => do
    skipNewlines
    let body ← block .lambdaBody fuel
    let whole ← since opener
    pure ⟨whole, params, body⟩

-- statements

/-- Statements in braces. -/
def block (construct : Construct) : Nat → Parse σ (Block σ)
  | 0 => exhausted
  | fuel + 1 => do
    let opener ← symbol .openBrace
    let stmts ← statements fuel
    let closer ← close construct opener
    pure ⟨Location.merge opener closer, stmts⟩

/-- Statements up to a closing brace or the end of the input. -/
def statements : Nat → Parse σ (List (Stmt σ))
  | 0 => exhausted
  | fuel + 1 => do
    skipSeparators
    match ← peek with
    | none => pure []
    | some (.symbol .closeBrace) => pure []
    | some _ =>
      let first ← statement fuel
      match ← peek with
      | some (.symbol .comma) => strayComma
      | _ =>
        let rest ← statements fuel
        pure (first :: rest)

def statement : Nat → Parse σ (Stmt σ)
  | 0 => exhausted
  | fuel + 1 => do
    match ← peek with
    | some (.keyword .ifWord) => conditional .ifTrue fuel
    | some (.keyword .unlessWord) => conditional .unlessTrue fuel
    | some (.symbol .comma) => strayComma
    | some (.name _) =>
      match ← callable fuel with
      | .statement stmt => pure stmt
      | .value expr => valueStatement expr fuel
    | _ =>
      let expr ← expression 0 fuel
      valueStatement expr fuel

/-- The statement that begins with the complete expression `expr`: an
assignment if its sign follows. -/
def valueStatement (expr : Expr σ) : Nat → Parse σ (Stmt σ)
  | 0 => exhausted
  | fuel + 1 => do
    match ← peek with
    | some (.symbol .assign) =>
      if expr.isAssignable then
        advance
        skipNewlines
        let value ← expression 0 fuel
        pure (.assign (Location.merge expr.span value.span) expr value)
      else fail (.unassignable expr.span)
    | _ => pure (.expr expr.span expr)

/-- A condition and its branches, the cursor on the word that opens it. -/
def conditional (sense : Sense) : Nat → Parse σ (Stmt σ)
  | 0 => exhausted
  | fuel + 1 => do
    let here ← place
    advance
    let condition ← expression 0 fuel
    let thenBranch ← block (branchConstruct sense) fuel
    let elseBranch ← alternative sense fuel
    let whole ← since here
    pure (.conditional whole sense condition thenBranch elseBranch)

/-- The branch for the other case; only an `if` goes on with `elsif`. -/
def alternative (sense : Sense) : Nat → Parse σ (Option (Block σ))
  | 0 => exhausted
  | fuel + 1 => do
    match ← peekPastNewlines, sense with
    | some (.keyword .elsifWord), .ifTrue =>
      skipNewlines
      let nested ← conditional .ifTrue fuel
      pure (some ⟨nested.span, [nested]⟩)
    | some (.keyword .elseWord), _ =>
      skipNewlines
      advance
      let body ← block .elseBody fuel
      pure (some body)
    | _, _ => pure none

/-- A name in statement position, with all that belongs to it. -/
def callable : Nat → Parse σ (Callable σ)
  | 0 => exhausted
  | fuel + 1 => do
    let callee ← name .name
    match ← peek with
    | some (.symbol .openParen) =>
      let call ← callOf callee fuel
      let whole ← continued call fuel
      match whole, ← peek with
      | .call _ _ _ _, some (.symbol .assign) => pure (.value whole)
      | .call span callee args lambda, _ => pure (.statement (.invoke span callee args lambda))
      | _, _ => pure (.value whole)
    | found =>
      if beginsArgument found (← touching) then
        let args ← bareArguments fuel
        let whole ← since callee.span
        if args.length ≤ 1 || (← takesArguments callee.name) then
          pure (.statement (.invoke whole callee args none))
        else fail (.needsParentheses callee.name whole)
      else
        let whole ← continued (.word callee.span callee.name) fuel
        pure (.value whole)

/-- The suffixes and operators after a primary. -/
def continued (first : Expr σ) : Nat → Parse σ (Expr σ)
  | 0 => exhausted
  | fuel + 1 => do
    let left ← suffixes first fuel
    operators 0 left fuel

end

/-- A whole source unit. -/
def program : Nat → Parse σ (Program σ)
  | 0 => exhausted
  | fuel + 1 => do
    let here ← place
    let stmts ← statements fuel
    match ← peek with
    | none =>
      if stmts.isEmpty then pure ⟨⟨here, []⟩⟩
      else
        let whole ← since here
        pure ⟨⟨whole, stmts⟩⟩
    | some _ => unexpected .statement

end CallGrammar.Grammar
