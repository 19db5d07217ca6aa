import CallGrammar.Proofs.Extent
import CallGrammar.Proofs.Reading.Follow

/-!
# CallGrammar.Proofs.Subtree

The parts of a tree that have a place, and what it means for a part to stand on tokens.

`Planted context ts n` says that the part `n` stands on exactly the tokens `ts`: they
derive it with nothing after them, its span reaches from their start to their end, and
its children stand on runs of them one after the other (`Laid`).  What a tree says about
its places follows from this: the part is what its span holds, and spans are nested and
in order.
-/

namespace CallGrammar

variable {σ : Type}

/-! ## parts of trees -/

/-- A part of a tree that has a place. -/
inductive Subtree (σ : Type) where
  | ident (ident : Ident σ)
  | expr (expr : Expr σ)
  | lambda (lambda : Lambda σ)
  | block (block : Block σ)
  | stmt (stmt : Stmt σ)

/-- The parts of a call, which an invocation has as well. -/
def callChildren (callee : Ident σ) (args : List (Expr σ)) (lambda : Option (Lambda σ)) :
    List (Subtree σ) :=
  .ident callee :: (args.map .expr ++ lambda.toList.map .lambda)

def Entry.children (e : Entry σ) : List (Subtree σ) := [.expr e.key, .expr e.value]

def Expr.children : Expr σ → List (Subtree σ)
  | call _ callee args lambda => callChildren callee args lambda
  | method _ receiver callee args lambda => .expr receiver :: callChildren callee args lambda
  | word _ _ | reference _ _ | var _ _ | literal _ _ => []
  | array _ items => items.map .expr
  | hash _ entries => entries.flatMap Entry.children
  | access _ target keys => .expr target :: keys.map .expr
  | binary _ _ left right => [.expr left, .expr right]
  | unary _ _ operand => [.expr operand]

def Stmt.children : Stmt σ → List (Subtree σ)
  | invoke _ callee args lambda => callChildren callee args lambda
  | assign _ target value => [.expr target, .expr value]
  | conditional _ _ condition thenBranch elseBranch =>
    .expr condition :: .block thenBranch :: elseBranch.toList.map .block
  | expr _ value => [.expr value]

namespace Subtree

def span : Subtree σ → σ
  | ident i => i.span
  | expr e => e.span
  | lambda l => l.span
  | block b => b.span
  | stmt s => s.span

/-- The parts that a part directly consists of, in the order of the source. -/
def children : Subtree σ → List (Subtree σ)
  | ident _ => []
  | expr e => e.children
  | lambda l => l.params.map ident ++ [block l.body]
  | block b => b.stmts.map stmt
  | stmt s => s.children

/-- A part is itself in a tree, or in one of its children. -/
inductive Contains : Subtree σ → Subtree σ → Prop where
  | here (n : Subtree σ) : Contains n n
  | child {n c m : Subtree σ} (hc : c ∈ n.children) (h : Contains c m) : Contains n m

end Subtree

/-- The part is in one of the statements of the source unit. -/
def Program.Has (p : Program σ) (n : Subtree σ) : Prop :=
  ∃ s ∈ p.body.stmts, (Subtree.stmt s).Contains n

/-- The span of an expression does not tell its parts. -/
@[simp] theorem Expr.children_withSpan (s : σ) (e : Expr σ) :
    (e.withSpan s).children = e.children := by
  cases e <;> rfl

/-! ## parts on their tokens -/

/-- The tokens derive the part with nothing after them.  An `elsif` with its condition and
branches is a statement of the tree, but only after another conditional. -/
def Subtree.Whole [Location σ] (context : Context σ) (ts : List (Token σ)) : Subtree σ → Prop
  | expr e => Reads context (.expression 0) ts [] e
  | lambda l => Reads context .lambda ts [] l
  | stmt s => Reads context .statement ts [] s ∨ headKind ts = some (.keyword .elsifWord)
  | ident _ | block _ => True

mutual

/-- The part stands on the tokens. -/
inductive Planted (context : Context Span) : List (Token Span) → Subtree Span → Prop where
  | intro {ts : List (Token Span)} {n : Subtree Span} (whole : n.Whole context ts)
      (covers : Covers n.span ts) (laid : Laid context ts n.children) : Planted context ts n

/-- The parts stand on runs of the tokens, one after the other. -/
inductive Laid (context : Context Span) : List (Token Span) → List (Subtree Span) → Prop where
  | nil (ts : List (Token Span)) : Laid context ts []
  | cons {n : Subtree Span} {ns : List (Subtree Span)} {ts us : List (Token Span)}
      (gap : List (Token Span)) (first : Planted context ts n) (rest : Laid context us ns) :
      Laid context (gap ++ (ts ++ us)) (n :: ns)

end

namespace Planted

variable {context : Context Span} {ts : List (Token Span)} {n m : Subtree Span}

/-- The tokens of a part are read as that part by the phrase for its kind. -/
theorem whole (h : Planted context ts n) : n.Whole context ts := by
  cases h with
  | intro whole => exact whole

/-- The tokens of a part span what the part does. -/
theorem covers (h : Planted context ts n) : Covers n.span ts := by
  cases h with
  | intro _ covers => exact covers

/-- The parts of a part are laid out in its tokens. -/
theorem laid (h : Planted context ts n) : Laid context ts n.children := by
  cases h with
  | intro _ _ laid => exact laid

theorem of_ident (t : Token Span) (name : String) :
    Planted context [t] (.ident ⟨name, t.span⟩) :=
  .intro trivial (.single t) (.nil _)

/-- An expression with its parts laid out is planted in its tokens. -/
theorem of_expression {e : Expr Span} (hs : Sorted ts) (h : Reads context (.expression 0) ts [] e)
    (hlaid : Laid context ts e.children) : Planted context ts (.expr e) :=
  .intro h (h.extends hs) hlaid

/-- A statement with its parts laid out is planted in its tokens. -/
theorem of_statement {s : Stmt Span} (hs : Sorted ts) (h : Reads context .statement ts [] s)
    (hlaid : Laid context ts s.children) : Planted context ts (.stmt s) :=
  .intro (.inl h) (h.extends hs) hlaid

end Planted

namespace Laid

variable {context : Context Span} {ts us : List (Token Span)} {n c : Subtree Span}
  {ns ms : List (Subtree Span)}

theorem of_eq (h : Laid context ts ns) (heq : us = ts) : Laid context us ns := by
  rw [heq]
  exact h

/-- Tokens that belong to no part may stand before the parts. -/
theorem front (h : Laid context ts ns) (gap : List (Token Span)) :
    Laid context (gap ++ ts) ns := by
  cases h with
  | nil => exact .nil _
  | cons gap' first rest =>
    rw [← List.append_assoc]
    exact .cons _ first rest

/-- Parts in one run of tokens, and then parts in the next. -/
theorem append (h : Laid context ts ns) (h' : Laid context us ms) :
    Laid context (ts ++ us) (ns ++ ms) := by
  induction ns generalizing ts with
  | nil => exact h'.front ts
  | cons n ns ih =>
    cases h with
    | cons gap first rest =>
      rw [List.append_assoc, List.append_assoc]
      exact .cons gap first (ih rest)

/-- Tokens that belong to no part may stand behind the parts. -/
theorem behind (h : Laid context ts ns) (gap : List (Token Span)) :
    Laid context (ts ++ gap) ns := by
  have happend := h.append (.nil gap)
  rwa [List.append_nil] at happend

/-- Tokens on both sides of the parts. -/
theorem between (h : Laid context ts ns) (gap gap' : List (Token Span)) :
    Laid context (gap ++ (ts ++ gap')) ns :=
  (h.behind gap').front gap

/-- One part in its own tokens. -/
theorem single (h : Planted context ts n) : Laid context ts [n] := by
  have hcons : Laid context (ts ++ []) [n] := .cons [] h (.nil [])
  rwa [List.append_nil] at hcons

/-- A part before others. -/
theorem follow (h : Planted context ts n) (h' : Laid context us ns) :
    Laid context (ts ++ us) (n :: ns) :=
  .cons [] h h'

/-- The parts of a call: its name, its arguments and its lambda. -/
theorem call {args : List (Expr Span)} {lambda : Option (Lambda Span)} (t : Token Span)
    (name : String) (hargs : Laid context ts (args.map .expr))
    (hlambda : Laid context us (lambda.toList.map .lambda)) :
    Laid context (t :: (ts ++ us)) (callChildren ⟨name, t.span⟩ args lambda) :=
  .follow (.of_ident t name) (hargs.append hlambda)

/-- Each of the parts is planted in tokens of its own. -/
theorem planted_of_mem (h : Laid context ts ns) (hc : c ∈ ns) :
    ∃ us, us <:+: ts ∧ Planted context us c := by
  induction ns generalizing ts with
  | nil => cases hc
  | cons n ns ih =>
    cases h with
    | @cons _ _ us vs gap first rest =>
      obtain rfl | hc := List.mem_cons.1 hc
      · exact ⟨us, ⟨gap, vs, by simp⟩, first⟩
      · obtain ⟨ws, hws, hplanted⟩ := ih rest hc
        have hsuffix : vs <:+: gap ++ (us ++ vs) := ⟨gap ++ us, [], by simp⟩
        exact ⟨ws, hws.trans hsuffix, hplanted⟩

end Laid

/-- What is in a planted part stands on some of its tokens. -/
theorem Planted.of_contains {context : Context Span} {ts : List (Token Span)}
    {n m : Subtree Span} (h : Planted context ts n) (hm : n.Contains m) :
    ∃ us, us <:+: ts ∧ Planted context us m := by
  induction hm generalizing ts with
  | here => exact ⟨ts, List.infix_rfl, h⟩
  | child hc _ ih =>
    obtain ⟨us, hus, hchild⟩ := h.laid.planted_of_mem hc
    obtain ⟨vs, hvs, hplanted⟩ := ih hchild
    exact ⟨vs, hvs.trans hus, hplanted⟩

end CallGrammar
