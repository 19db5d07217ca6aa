import CallGrammar.Ast
import CallGrammar.Layout

/-!
# CallGrammar.Ast.Dump

A tree as a form in parentheses, its head first.

1. Names, numbers and references stand as they are written, variables after a
   dollar sign, strings between single quotes with their value unchanged.
2. The statements of a block stand on lines of their own, one level deeper.
3. A whole program, and a branch of a conditional, is laid out as a block only
   if it has several statements; alone, a statement stands for itself.
-/

namespace CallGrammar

variable {σ : Type}

/-- A word that stands for a literal. -/
def Literal.toPart : Literal → Part
  | integer s | float s => .text s
  | string s => .text ("'" ++ s ++ "'")
  | boolean true => .text "true"
  | boolean false => .text "false"
  | undef => .text "undef"

/-- The word before the parameters of a lambda, if it has any. -/
def Ident.parametersPart (params : List (Ident σ)) : List Part :=
  if params.isEmpty then []
  else [.list (.text "parameters" :: params.map fun p => .text p.name)]

/-- The word that opens a conditional. -/
def Sense.word : Sense → String
  | ifTrue => "if"
  | unlessTrue => "unless"

/-- The form of a branch of a conditional. -/
def branchPart (word : String) (branch : Part) : Part :=
  .list [.text word, .indent, branch, .dedent]

/-- The form of statements on lines of their own. -/
def blockPart (stmts : List Part) : Part :=
  .list (.text "block" :: .indent ::
    (stmts.flatMap (fun part => [.lineBreak, part]) ++ [.dedent, .lineBreak]))

/-- The form of statements that need no lines of their own if there is but one. -/
def compactPart : List Part → Part
  | [] => .list []
  | [part] => part
  | parts => blockPart parts

mutual

def Expr.toPart : Expr σ → Part
  | .call _ callee args lambda =>
    .list (.text "call" :: .text callee.name :: (partsOfExprs args ++ partsOfLambda lambda))
  | .method _ receiver callee args lambda =>
    .list (.text "call-method" :: .list [.text ".", receiver.toPart, .text callee.name]
      :: (partsOfExprs args ++ partsOfLambda lambda))
  | .word _ name | .reference _ name => .text name
  | .var _ name => .text ("$" ++ name)
  | .literal _ value => value.toPart
  | .array _ items => .list (.text "[]" :: partsOfExprs items)
  | .hash _ entries => .list (.text "\x7b\x7d" :: partsOfEntries entries)
  | .access _ target keys => .list (.text "slice" :: target.toPart :: partsOfExprs keys)
  | .binary _ op left right => .list [.text op.sign, left.toPart, right.toPart]
  | .unary _ op operand => .list [.text op.sign, operand.toPart]

def partsOfExprs : List (Expr σ) → List Part
  | [] => []
  | e :: es => e.toPart :: partsOfExprs es

def Entry.toPart : Entry σ → Part
  | ⟨key, value⟩ => .list [.text "=>", key.toPart, value.toPart]

def partsOfEntries : List (Entry σ) → List Part
  | [] => []
  | e :: es => e.toPart :: partsOfEntries es

def partsOfLambda : Option (Lambda σ) → List Part
  | none => []
  | some lambda => [lambda.toPart]

def Lambda.toPart : Lambda σ → Part
  | ⟨_, params, ⟨_, stmts⟩⟩ =>
    .list (.text "lambda" ::
      (Ident.parametersPart params
        ++ [if stmts.isEmpty then .list [] else blockPart (partsOfStmts stmts)]))

def Stmt.toPart : Stmt σ → Part
  | .invoke _ callee args lambda =>
    .list (.text "invoke" :: .text callee.name :: (partsOfExprs args ++ partsOfLambda lambda))
  | .assign _ target value => .list [.text "=", target.toPart, value.toPart]
  | .conditional _ sense condition ⟨_, stmts⟩ elseBranch =>
    .list ([.text sense.word, condition.toPart, .indent, .lineBreak,
        branchPart "then" (compactPart (partsOfStmts stmts))]
      ++ partsOfElse elseBranch ++ [.dedent])
  | .expr _ value => value.toPart

def partsOfElse : Option (Block σ) → List Part
  | none => []
  | some ⟨_, stmts⟩ => [.lineBreak, branchPart "else" (compactPart (partsOfStmts stmts))]

def partsOfStmts : List (Stmt σ) → List Part
  | [] => []
  | s :: ss => s.toPart :: partsOfStmts ss

end

def Block.toPart (b : Block σ) : Part := blockPart (partsOfStmts b.stmts)

def Program.toPart (p : Program σ) : Part := compactPart (partsOfStmts p.body.stmts)

end CallGrammar
