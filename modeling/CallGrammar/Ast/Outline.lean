import CallGrammar.Ast
import CallGrammar.Outline

/-!
# CallGrammar.Ast.Outline

Every field of a tree, with the places of all nodes.
-/

namespace CallGrammar

def Span.toOutline (s : Span) : Outline :=
  .record "Span" [("start", .number s.start), ("end", .number s.stop)]

def Ident.toOutline (i : Ident Span) : Outline :=
  .record "Spanned" [("node", .text i.name), ("span", i.span.toOutline)]

def Literal.toOutline : Literal → Outline
  | integer s => .variant "Integer" (.text s)
  | float s => .variant "Float" (.text s)
  | string s => .variant "String" (.text s)
  | boolean true => .variant "Boolean" (.atom "true")
  | boolean false => .variant "Boolean" (.atom "false")
  | undef => .atom "Undef"

/-- A node with what it is and where it stands. -/
def Outline.node (name : String) (kind : Outline) (s : Span) : Outline :=
  .record name [("kind", kind), ("span", s.toOutline)]

def Sense.label : Sense → String
  | ifTrue => "If"
  | unlessTrue => "Unless"

mutual

def Expr.toOutline : Expr Span → Outline
  | .call s callee args lambda =>
    .node "Expr" (.record "Call" [("callee", callee.toOutline),
      ("args", .list (outlineExprs args)), ("lambda", .option (outlineLambda? lambda))]) s
  | .method s receiver callee args lambda =>
    .node "Expr" (.record "CallMethod" [("receiver", receiver.toOutline),
      ("method", callee.toOutline), ("args", .list (outlineExprs args)),
      ("lambda", .option (outlineLambda? lambda))]) s
  | .word s name => .node "Expr" (.variant "BareWord" (.text name)) s
  | .reference s name => .node "Expr" (.variant "ClassRef" (.text name)) s
  | .var s name => .node "Expr" (.variant "Variable" (.text name)) s
  | .literal s value => .node "Expr" (.variant "Literal" value.toOutline) s
  | .array s items => .node "Expr" (.variant "Array" (.list (outlineExprs items))) s
  | .hash s entries => .node "Expr" (.variant "Hash" (.list (outlineEntries entries))) s
  | .access s target keys =>
    .node "Expr" (.record "Access" [("target", target.toOutline),
      ("keys", .list (outlineExprs keys))]) s
  | .binary s op left right =>
    .node "Expr" (.record "Binary" [("op", .atom op.label), ("left", left.toOutline),
      ("right", right.toOutline)]) s
  | .unary s op operand =>
    .node "Expr" (.record "Unary" [("op", .atom op.label), ("operand", operand.toOutline)]) s

def outlineExprs : List (Expr Span) → List Outline
  | [] => []
  | e :: es => e.toOutline :: outlineExprs es

def outlineEntries : List (Entry Span) → List Outline
  | [] => []
  | ⟨key, value⟩ :: rest => .pair key.toOutline value.toOutline :: outlineEntries rest

def outlineLambda? : Option (Lambda Span) → Option Outline
  | none => none
  | some lambda => some lambda.toOutline

def Lambda.toOutline : Lambda Span → Outline
  | ⟨s, params, body⟩ =>
    .record "Lambda" [("params", .list (params.map Ident.toOutline)), ("body", body.toOutline),
      ("span", s.toOutline)]

def Block.toOutline : Block Span → Outline
  | ⟨s, stmts⟩ => .record "Block" [("stmts", .list (outlineStmts stmts)), ("span", s.toOutline)]

def outlineBlock? : Option (Block Span) → Option Outline
  | none => none
  | some block => some block.toOutline

def outlineStmts : List (Stmt Span) → List Outline
  | [] => []
  | s :: ss => s.toOutline :: outlineStmts ss

def Stmt.toOutline : Stmt Span → Outline
  | .invoke s callee args lambda =>
    .node "Stmt" (.record "Invoke" [("callee", callee.toOutline),
      ("args", .list (outlineExprs args)), ("lambda", .option (outlineLambda? lambda))]) s
  | .assign s target value =>
    .node "Stmt" (.record "Assign" [("target", target.toOutline), ("value", value.toOutline)]) s
  | .conditional s sense condition thenBranch elseBranch =>
    .node "Stmt" (.record sense.label [("condition", condition.toOutline),
      ("then_branch", thenBranch.toOutline),
      ("else_branch", .option (outlineBlock? elseBranch))]) s
  | .expr s value => .node "Stmt" (.variant "Expr" value.toOutline) s

end

def Program.toOutline (p : Program Span) : Outline :=
  .record "Program" [("body", p.body.toOutline)]

end CallGrammar
