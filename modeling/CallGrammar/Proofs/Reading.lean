import CallGrammar.Proofs.Phrase

/-!
# CallGrammar.Proofs.Reading

The grammar as a relation between tokens and trees, without a cursor and without
a bound on nested calls.  `Reads context p ts after v` says that the tokens `ts`,
where the tokens `after` follow, are a phrase `p` with the value `v`.

Of the tokens `after` a derivation sees the first one, and the first one that is
no line break; a phrase that may go on says there why it ends.  That a phrase is
read exactly as it derives is shown in `Reading.Sound` and `Reading.Complete`.
-/

namespace CallGrammar

variable {σ : Type}

/-! ## runs of tokens -/

/-- The kind of the first token; `none` if there is none. -/
def headKind (ts : List (Token σ)) : Option Kind := ts.head?.map (·.kind)

@[simp] theorem headKind_cons (t : Token σ) (ts : List (Token σ)) :
    headKind (t :: ts) = some t.kind := rfl

/-- Whether the first token touches the one before it. -/
def headTouches (ts : List (Token σ)) : Bool := (ts.head?.map (·.touching)).getD false

/-- The place that reaches from `first` to the last of the tokens. -/
def through [Location σ] (first : σ) (ts : List (Token σ)) : σ :=
  match ts.getLast? with
  | none => first
  | some t => Location.merge first t.span

/-- All of the tokens are of kinds that `p` holds of. -/
def AllKinds (p : Kind → Bool) (ts : List (Token σ)) : Prop := ∀ t ∈ ts, p t.kind = true

/-- All of the tokens are line breaks. -/
def Newlines (ts : List (Token σ)) : Prop := AllKinds (· == .newline) ts

/-- All of the tokens are line breaks or semicolons. -/
def Separators (ts : List (Token σ)) : Prop :=
  AllKinds (fun k => k == .newline || k == .symbol .semicolon) ts

/-- The kind of the first token that is no line break. -/
def headKindPastNewlines (ts : List (Token σ)) : Option Kind :=
  headKind (ts.dropWhile (·.kind == .newline))

theorem AllKinds.nil {p : Kind → Bool} : AllKinds p ([] : List (Token σ)) :=
  fun _ h => absurd h List.not_mem_nil

theorem AllKinds.cons {p : Kind → Bool} {t : Token σ} {ts : List (Token σ)}
    (ht : p t.kind = true) (h : AllKinds p ts) : AllKinds p (t :: ts) := by
  intro u hu
  obtain rfl | hu := List.mem_cons.1 hu
  · exact ht
  · exact h u hu

theorem AllKinds.head {p : Kind → Bool} {t : Token σ} {ts : List (Token σ)}
    (h : AllKinds p (t :: ts)) : p t.kind = true :=
  h t List.mem_cons_self

theorem AllKinds.tail {p : Kind → Bool} {t : Token σ} {ts : List (Token σ)}
    (h : AllKinds p (t :: ts)) : AllKinds p ts :=
  fun u hu => h u (List.mem_cons_of_mem t hu)

/-- Tokens one after the other. -/
theorem AllKinds.append {p : Kind → Bool} {ts us : List (Token σ)} (h : AllKinds p ts)
    (h' : AllKinds p us) : AllKinds p (ts ++ us) :=
  fun t ht => (List.mem_append.1 ht).elim (h t) (h' t)

/-- Line breaks are of a kind. -/
theorem Newlines.all {p : Kind → Bool} {ts : List (Token σ)} (h : Newlines ts)
    (hnewline : p .newline = true) : AllKinds p ts := by
  intro t ht
  rw [eq_of_beq (h t ht), hnewline]

/-- Separators are line breaks and semicolons, so what holds of both kinds holds of them. -/
theorem Separators.all {p : Kind → Bool} {ts : List (Token σ)} (h : Separators ts)
    (hnewline : p .newline = true) (hsemicolon : p (.symbol .semicolon) = true) :
    AllKinds p ts := by
  intro t ht
  obtain hk | hk := Bool.or_eq_true_iff.1 (h t ht)
  · rw [eq_of_beq hk, hnewline]
  · rw [eq_of_beq hk, hsemicolon]

/-- The words that a condition stands after. -/
def opensCondition : Sense → Kind → Bool
  | .ifTrue, .keyword .ifWord | .ifTrue, .keyword .elsifWord
  | .unlessTrue, .keyword .unlessWord => true
  | _, _ => false

/-! ## derivations -/

/-- The tokens `ts` before `after` are a phrase with the given value. -/
inductive Reads [Location σ] (context : Context σ) :
    (p : Phrase σ) → (ts after : List (Token σ)) → p.Value → Prop where
  -- parameters
  | noParameters {opener : σ} {nl after : List (Token σ)} (hnl : Newlines nl)
      (hafter : headKind after = some (.symbol .pipe)) :
      Reads context (.parameters opener) nl after []
  | lastParameter {opener : σ} {t : Token σ} {name : String} {nl nl' after : List (Token σ)}
      (hnl : Newlines nl) (ht : t.kind = .var name) (hnl' : Newlines nl')
      (hafter : headKind after = some (.symbol .pipe)) :
      Reads context (.parameters opener) (nl ++ t :: nl') after [⟨name, t.span⟩]
  | moreParameters {opener : σ} {t comma : Token σ} {name : String} {params : List (Ident σ)}
      {nl nl' ts after : List (Token σ)} (hnl : Newlines nl) (ht : t.kind = .var name)
      (hnl' : Newlines nl') (hcomma : comma.kind = .symbol .comma)
      (hrest : Reads context (.parameters opener) ts after params) :
      Reads context (.parameters opener) (nl ++ t :: (nl' ++ comma :: ts)) after
        (⟨name, t.span⟩ :: params)
  -- expressions
  | expression {floor : Nat} {left value : Expr σ} {ts us after : List (Token σ)}
      (hleft : Reads context .operand ts (us ++ after) left)
      (hrest : Reads context (.operators floor left) us after value) :
      Reads context (.expression floor) (ts ++ us) after value
  | noOperator {floor : Nat} {left : Expr σ} {after : List (Token σ)}
      (hafter : ∀ op, (headKind after).bind BinaryOp.ofKind? = some op → op.level < floor) :
      Reads context (.operators floor left) [] after left
  | operator {floor : Nat} {left right value : Expr σ} {t : Token σ} {op : BinaryOp}
      {nl ts us after : List (Token σ)} (ht : BinaryOp.ofKind? t.kind = some op)
      (hlevel : floor ≤ op.level) (hnl : Newlines nl)
      (hright : Reads context (.expression (op.level + 1)) ts (us ++ after) right)
      (hrest : Reads context
        (.operators floor (.binary (Location.merge left.span right.span) op left right))
        us after value) :
      Reads context (.operators floor left) (t :: (nl ++ (ts ++ us))) after value
  | sign {t : Token σ} {op : UnaryOp} {inner : Expr σ} {ts after : List (Token σ)}
      (ht : UnaryOp.ofKind? t.kind = some op) (hinner : Reads context .operand ts after inner) :
      Reads context .operand (t :: ts) after (.unary (Location.merge t.span inner.span) op inner)
  | operand {first value : Expr σ} {ts us after : List (Token σ)}
      (hfirst : Reads context .primary ts (us ++ after) first)
      (hrest : Reads context (.suffixes first) us after value) :
      Reads context .operand (ts ++ us) after value
  | noSuffix {target : Expr σ} {after : List (Token σ)}
      (hdot : headKind after ≠ some (.symbol .dot))
      (hbracket : headKind after = some (.symbol .openBracket) → headTouches after = false) :
      Reads context (.suffixes target) [] after target
  | method {target value : Expr σ} {dot t : Token σ} {name : String} {args : List (Expr σ)}
      {lambda : Option (Lambda σ)} {ts us vs after : List (Token σ)}
      (hdot : dot.kind = .symbol .dot) (ht : t.kind = .name name)
      (hargs : Reads context .optionalArguments ts (us ++ (vs ++ after)) args)
      (hlambda : Reads context .optionalLambda us (vs ++ after) lambda)
      (hrest : Reads context (.suffixes (.method (through target.span (dot :: t :: (ts ++ us)))
        target ⟨name, t.span⟩ args lambda)) vs after value) :
      Reads context (.suffixes target) (dot :: t :: (ts ++ (us ++ vs))) after value
  | access {target value : Expr σ} {opener closer : Token σ} {keys : List (Expr σ)}
      {ts us after : List (Token σ)} (hopener : opener.kind = .symbol .openBracket)
      (htouching : opener.touching = true)
      (hkeys : Reads context (.elements .access) ts (closer :: (us ++ after)) keys)
      (hcloser : closer.kind = .symbol .closeBracket) (hne : keys ≠ [])
      (hrest : Reads context
        (.suffixes (.access (Location.merge target.span closer.span) target keys)) us after value) :
      Reads context (.suffixes target) (opener :: (ts ++ closer :: us)) after value
  | var {t : Token σ} {name : String} {after : List (Token σ)} (ht : t.kind = .var name) :
      Reads context .primary [t] after (.var t.span name)
  | reference {t : Token σ} {name : String} {after : List (Token σ)}
      (ht : t.kind = .reference name) :
      Reads context .primary [t] after (.reference t.span name)
  | literal {t : Token σ} {value : Literal} {after : List (Token σ)}
      (ht : Literal.ofKind? t.kind = some value) :
      Reads context .primary [t] after (.literal t.span value)
  | name {value : Expr σ} {ts after : List (Token σ)}
      (hname : Reads context .callOrWord ts after value) :
      Reads context .primary ts after value
  | array {opener closer : Token σ} {items : List (Expr σ)} {ts after : List (Token σ)}
      (hopener : opener.kind = .symbol .openBracket)
      (hitems : Reads context (.elements .array) ts (closer :: after) items)
      (hcloser : closer.kind = .symbol .closeBracket) :
      Reads context .primary (opener :: (ts ++ [closer])) after
        (.array (Location.merge opener.span closer.span) items)
  | hash {opener closer : Token σ} {found : List (Entry σ)} {nl ts after : List (Token σ)}
      (hopener : opener.kind = .symbol .openBrace) (hnl : Newlines nl)
      (hfound : Reads context .entries ts (closer :: after) found)
      (hcloser : closer.kind = .symbol .closeBrace) :
      Reads context .primary (opener :: (nl ++ (ts ++ [closer]))) after
        (.hash (Location.merge opener.span closer.span) found)
  | parentheses {opener closer : Token σ} {inner : Expr σ} {nl nl' ts after : List (Token σ)}
      (hopener : opener.kind = .symbol .openParen) (hnl : Newlines nl)
      (hinner : Reads context (.expression 0) ts (nl' ++ closer :: after) inner)
      (hnl' : Newlines nl') (hcloser : closer.kind = .symbol .closeParen) :
      Reads context .primary (opener :: (nl ++ (ts ++ (nl' ++ [closer])))) after
        (inner.withSpan (Location.merge opener.span closer.span))
  -- lists
  | noElements {construct : Construct} {nl after : List (Token σ)} (hnl : Newlines nl)
      (hafter : ∀ k, headKind after = some k → k = .symbol construct.closer) :
      Reads context (.elements construct) nl after []
  | lastElement {construct : Construct} {item : Expr σ} {nl nl' ts after : List (Token σ)}
      (hnl : Newlines nl) (hitem : Reads context (.expression 0) ts (nl' ++ after) item)
      (hnl' : Newlines nl') (hnewline : headKind after ≠ some .newline)
      (hcomma : headKind after ≠ some (.symbol .comma)) :
      Reads context (.elements construct) (nl ++ (ts ++ nl')) after [item]
  | moreElements {construct : Construct} {item : Expr σ} {items : List (Expr σ)} {comma : Token σ}
      {nl nl' ts us after : List (Token σ)} (hnl : Newlines nl)
      (hitem : Reads context (.expression 0) ts (nl' ++ comma :: (us ++ after)) item)
      (hnl' : Newlines nl') (hcomma : comma.kind = .symbol .comma)
      (hrest : Reads context (.elements construct) us after items) :
      Reads context (.elements construct) (nl ++ (ts ++ (nl' ++ comma :: us))) after (item :: items)
  | noEntries {after : List (Token σ)}
      (hafter : ∀ k, headKind after = some k → k = .symbol .closeBrace) :
      Reads context .entries [] after []
  | lastEntry {key value : Expr σ} {arrow : Token σ} {nl₁ nl₂ nl₃ ts us after : List (Token σ)}
      (hkey : Reads context (.expression 0) ts
        (nl₁ ++ arrow :: (nl₂ ++ (us ++ (nl₃ ++ after)))) key)
      (hnl₁ : Newlines nl₁) (harrow : arrow.kind = .symbol .arrow) (hnl₂ : Newlines nl₂)
      (hvalue : Reads context (.expression 0) us (nl₃ ++ after) value) (hnl₃ : Newlines nl₃)
      (hnewline : headKind after ≠ some .newline)
      (hcomma : headKind after ≠ some (.symbol .comma)) :
      Reads context .entries (ts ++ (nl₁ ++ arrow :: (nl₂ ++ (us ++ nl₃)))) after [⟨key, value⟩]
  | moreEntries {key value : Expr σ} {found : List (Entry σ)} {arrow comma : Token σ}
      {nl₁ nl₂ nl₃ nl₄ ts us vs after : List (Token σ)}
      (hkey : Reads context (.expression 0) ts
        (nl₁ ++ arrow :: (nl₂ ++ (us ++ (nl₃ ++ comma :: (nl₄ ++ (vs ++ after)))))) key)
      (hnl₁ : Newlines nl₁) (harrow : arrow.kind = .symbol .arrow) (hnl₂ : Newlines nl₂)
      (hvalue : Reads context (.expression 0) us
        (nl₃ ++ comma :: (nl₄ ++ (vs ++ after))) value)
      (hnl₃ : Newlines nl₃) (hcomma : comma.kind = .symbol .comma) (hnl₄ : Newlines nl₄)
      (hnewline : headKind (vs ++ after) ≠ some .newline)
      (hrest : Reads context .entries vs after found) :
      Reads context .entries
        (ts ++ (nl₁ ++ arrow :: (nl₂ ++ (us ++ (nl₃ ++ comma :: (nl₄ ++ vs)))))) after
        (⟨key, value⟩ :: found)
  | arguments {opener closer : Token σ} {args : List (Expr σ)} {ts after : List (Token σ)}
      (hopener : opener.kind = .symbol .openParen)
      (hargs : Reads context (.elements .argumentList) ts (closer :: after) args)
      (hcloser : closer.kind = .symbol .closeParen) :
      Reads context .arguments (opener :: (ts ++ [closer])) after args
  | noArguments {after : List (Token σ)} (hafter : headKind after ≠ some (.symbol .openParen)) :
      Reads context .optionalArguments [] after []
  | someArguments {args : List (Expr σ)} {ts after : List (Token σ)}
      (hargs : Reads context .arguments ts after args) :
      Reads context .optionalArguments ts after args
  | bareArguments {first : Expr σ} {rest : List (Expr σ)} {ts us after : List (Token σ)}
      (hfirst : Reads context (.expression 0) ts (us ++ after) first)
      (hrest : Reads context .moreBareArguments us after rest) :
      Reads context .bareArguments (ts ++ us) after (first :: rest)
  | noMoreArguments {after : List (Token σ)} (hafter : headKind after ≠ some (.symbol .comma)) :
      Reads context .moreBareArguments [] after []
  | moreArguments {comma : Token σ} {first : Expr σ} {rest : List (Expr σ)}
      {nl ts us after : List (Token σ)} (hcomma : comma.kind = .symbol .comma) (hnl : Newlines nl)
      (hfirst : Reads context (.expression 0) ts (us ++ after) first)
      (hrest : Reads context .moreBareArguments us after rest) :
      Reads context .moreBareArguments (comma :: (nl ++ (ts ++ us))) after (first :: rest)
  -- calls
  | word {t : Token σ} {name : String} {after : List (Token σ)} (ht : t.kind = .name name)
      (hafter : headKind after ≠ some (.symbol .openParen)) :
      Reads context .callOrWord [t] after (.word t.span name)
  | call {t : Token σ} {name : String} {value : Expr σ} {ts after : List (Token σ)}
      (ht : t.kind = .name name)
      (hcall : Reads context (.callOf ⟨name, t.span⟩) ts after value) :
      Reads context .callOrWord (t :: ts) after value
  | callOf {callee : Ident σ} {args : List (Expr σ)} {lambda : Option (Lambda σ)}
      {ts us after : List (Token σ)} (hargs : Reads context .arguments ts (us ++ after) args)
      (hlambda : Reads context .optionalLambda us after lambda) :
      Reads context (.callOf callee) (ts ++ us) after
        (.call (through callee.span (ts ++ us)) callee args lambda)
  | noLambda {after : List (Token σ)} (hpipe : headKind after ≠ some (.symbol .pipe))
      (hpipes : headKind after ≠ some (.symbol .pipePipe)) :
      Reads context .optionalLambda [] after none
  | someLambda {lambda : Lambda σ} {ts after : List (Token σ)}
      (hlambda : Reads context .lambda ts after lambda) :
      Reads context .optionalLambda ts after (some lambda)
  | lambdaNoList {t : Token σ} {lambda : Lambda σ} {ts after : List (Token σ)}
      (ht : t.kind = .symbol .pipePipe)
      (hbody : Reads context (.lambdaBody t.span []) ts after lambda) :
      Reads context .lambda (t :: ts) after lambda
  | lambda {opener closer : Token σ} {params : List (Ident σ)} {lambda : Lambda σ}
      {ts us after : List (Token σ)} (hopener : opener.kind = .symbol .pipe)
      (hparams : Reads context (.parameters opener.span) ts (closer :: (us ++ after)) params)
      (hcloser : closer.kind = .symbol .pipe)
      (hbody : Reads context (.lambdaBody opener.span params) us after lambda) :
      Reads context .lambda (opener :: (ts ++ closer :: us)) after lambda
  | lambdaBody {opener : σ} {params : List (Ident σ)} {body : Block σ}
      {nl ts after : List (Token σ)} (hnl : Newlines nl)
      (hbody : Reads context (.block .lambdaBody) ts after body) :
      Reads context (.lambdaBody opener params) (nl ++ ts) after
        ⟨through opener ts, params, body⟩
  -- statements
  | block {construct : Construct} {opener closer : Token σ} {stmts : List (Stmt σ)}
      {ts after : List (Token σ)} (hopener : opener.kind = .symbol .openBrace)
      (hstmts : Reads context .statements ts (closer :: after) stmts)
      (hcloser : closer.kind = .symbol construct.closer) :
      Reads context (.block construct) (opener :: (ts ++ [closer])) after
        ⟨Location.merge opener.span closer.span, stmts⟩
  | noStatements {seps after : List (Token σ)} (hseps : Separators seps)
      (hafter : ∀ k, headKind after = some k → k = .symbol .closeBrace) :
      Reads context .statements seps after []
  | moreStatements {first : Stmt σ} {rest : List (Stmt σ)} {seps ts us after : List (Token σ)}
      (hseps : Separators seps) (hfirst : Reads context .statement ts (us ++ after) first)
      (hcomma : headKind (us ++ after) ≠ some (.symbol .comma))
      (hrest : Reads context .statements us after rest) :
      Reads context .statements (seps ++ (ts ++ us)) after (first :: rest)
  | branching {sense : Sense} {stmt : Stmt σ} {t : Token σ} {ts after : List (Token σ)}
      (ht : t.kind = .keyword .ifWord ∧ sense = .ifTrue ∨
        t.kind = .keyword .unlessWord ∧ sense = .unlessTrue)
      (hstmt : Reads context (.conditional sense) (t :: ts) after stmt) :
      Reads context .statement (t :: ts) after stmt
  | invocation {stmt : Stmt σ} {ts after : List (Token σ)}
      (hcallable : Reads context .callable ts after (.statement stmt)) :
      Reads context .statement ts after stmt
  | callableValue {expr : Expr σ} {stmt : Stmt σ} {ts us after : List (Token σ)}
      (hcallable : Reads context .callable ts (us ++ after) (.value expr))
      (hstmt : Reads context (.valueStatement expr) us after stmt) :
      Reads context .statement (ts ++ us) after stmt
  | value {expr : Expr σ} {stmt : Stmt σ} {ts us after : List (Token σ)}
      (hname : ∀ name, headKind ts ≠ some (.name name))
      (hexpr : Reads context (.expression 0) ts (us ++ after) expr)
      (hstmt : Reads context (.valueStatement expr) us after stmt) :
      Reads context .statement (ts ++ us) after stmt
  | assignment {target value : Expr σ} {t : Token σ} {nl ts after : List (Token σ)}
      (ht : t.kind = .symbol .assign) (htarget : target.isAssignable = true) (hnl : Newlines nl)
      (hvalue : Reads context (.expression 0) ts after value) :
      Reads context (.valueStatement target) (t :: (nl ++ ts)) after
        (.assign (Location.merge target.span value.span) target value)
  | noAssignment {value : Expr σ} {after : List (Token σ)}
      (hafter : headKind after ≠ some (.symbol .assign)) :
      Reads context (.valueStatement value) [] after (.expr value.span value)
  | conditional {sense : Sense} {t : Token σ} {condition : Expr σ} {thenBranch : Block σ}
      {elseBranch : Option (Block σ)} {ts us vs after : List (Token σ)}
      (ht : opensCondition sense t.kind = true)
      (hcondition : Reads context (.expression 0) ts (us ++ (vs ++ after)) condition)
      (hthen : Reads context (.block (Grammar.branchConstruct sense)) us (vs ++ after) thenBranch)
      (helse : Reads context (.alternative sense) vs after elseBranch) :
      Reads context (.conditional sense) (t :: (ts ++ (us ++ vs))) after
        (.conditional (through t.span (ts ++ (us ++ vs))) sense condition thenBranch elseBranch)
  | noAlternative {sense : Sense} {after : List (Token σ)}
      (helsif : sense = .ifTrue → headKindPastNewlines after ≠ some (.keyword .elsifWord))
      (helse : headKindPastNewlines after ≠ some (.keyword .elseWord)) :
      Reads context (.alternative sense) [] after none
  | elsifAlternative {nested : Stmt σ} {t : Token σ} {nl ts after : List (Token σ)}
      (hnl : Newlines nl) (ht : t.kind = .keyword .elsifWord)
      (hnested : Reads context (.conditional .ifTrue) (t :: ts) after nested) :
      Reads context (.alternative .ifTrue) (nl ++ t :: ts) after (some ⟨nested.span, [nested]⟩)
  | elseAlternative {sense : Sense} {body : Block σ} {t : Token σ} {nl ts after : List (Token σ)}
      (hnl : Newlines nl) (ht : t.kind = .keyword .elseWord)
      (hbody : Reads context (.block .elseBody) ts after body) :
      Reads context (.alternative sense) (nl ++ t :: ts) after (some body)
  | wholeCall {t : Token σ} {name : String} {call : Expr σ} {span : σ} {callee : Ident σ}
      {args : List (Expr σ)} {lambda : Option (Lambda σ)} {ts us after : List (Token σ)}
      (ht : t.kind = .name name)
      (hcall : Reads context (.callOf ⟨name, t.span⟩) ts (us ++ after) call)
      (hrest : Reads context (.continued call) us after (.call span callee args lambda))
      (hafter : headKind after ≠ some (.symbol .assign)) :
      Reads context .callable (t :: (ts ++ us)) after (.statement (.invoke span callee args lambda))
  | callValue {t : Token σ} {name : String} {call whole : Expr σ} {ts us after : List (Token σ)}
      (ht : t.kind = .name name)
      (hcall : Reads context (.callOf ⟨name, t.span⟩) ts (us ++ after) call)
      (hrest : Reads context (.continued call) us after whole)
      (hwhole : (∃ span callee args lambda, whole = .call span callee args lambda) →
        headKind after = some (.symbol .assign)) :
      Reads context .callable (t :: (ts ++ us)) after (.value whole)
  | bareCall {t : Token σ} {name : String} {args : List (Expr σ)} {ts after : List (Token σ)}
      (ht : t.kind = .name name)
      (hbegins : Grammar.beginsArgument (headKind (ts ++ after)) (headTouches (ts ++ after)) = true)
      (hargs : Reads context .bareArguments ts after args)
      (hcount : args.length ≤ 1 ∨ name ∈ context.calls) :
      Reads context .callable (t :: ts) after
        (.statement (.invoke (through t.span ts) ⟨name, t.span⟩ args none))
  | wordValue {t : Token σ} {name : String} {whole : Expr σ} {ts after : List (Token σ)}
      (ht : t.kind = .name name) (hparen : headKind (ts ++ after) ≠ some (.symbol .openParen))
      (hbegins : Grammar.beginsArgument (headKind (ts ++ after)) (headTouches (ts ++ after)) = false)
      (hrest : Reads context (.continued (.word t.span name)) ts after whole) :
      Reads context .callable (t :: ts) after (.value whole)
  | continued {first left value : Expr σ} {ts us after : List (Token σ)}
      (hleft : Reads context (.suffixes first) ts (us ++ after) left)
      (hrest : Reads context (.operators 0 left) us after value) :
      Reads context (.continued first) (ts ++ us) after value
  | noProgram {ts : List (Token σ)} (hstmts : Reads context .statements ts [] []) :
      Reads context .program ts [] ⟨⟨(Cursor.start ts).place context.finish, []⟩⟩
  | program {stmts : List (Stmt σ)} {ts : List (Token σ)}
      (hstmts : Reads context .statements ts [] stmts) (hne : stmts ≠ []) :
      Reads context .program ts []
        ⟨⟨through ((Cursor.start ts).place context.finish) ts, stmts⟩⟩

/-- The same derivation, its tokens written in another way. -/
theorem Reads.of_eq [Location σ] {context : Context σ} {p : Phrase σ}
    {ts us after : List (Token σ)} {v : p.Value} (h : Reads context p ts after v) (heq : us = ts) :
    Reads context p us after v := by
  rw [heq]
  exact h

/-! ## first tokens -/

/-- The kinds of token that a value without a sign begins with. -/
def beginsPrimary : Kind → Bool
  | .var _ | .reference _ | .name _ | .integer _ | .float _ | .singleQuoted _ | .doubleQuoted _
  | .keyword .trueWord | .keyword .falseWord | .keyword .undefWord
  | .symbol .openBracket | .symbol .openBrace | .symbol .openParen => true
  | _ => false

/-- The kinds of token that an expression begins with. -/
def beginsExpression (k : Kind) : Bool := beginsPrimary k || (UnaryOp.ofKind? k).isSome

/-- The kinds of token that a statement begins with. -/
def beginsStatement : Kind → Bool
  | .keyword .ifWord | .keyword .unlessWord => true
  | k => beginsExpression k

def isName : Kind → Bool
  | .name _ => true
  | _ => false

def isParen : Kind → Bool
  | .symbol .openParen => true
  | _ => false

def isBrace : Kind → Bool
  | .symbol .openBrace => true
  | _ => false

def isBar : Kind → Bool
  | .symbol .pipe | .symbol .pipePipe => true
  | _ => false

/-- There is a first token, of a kind that `begins` holds of. -/
def BeginsWith (begins : Kind → Bool) (ts : List (Token σ)) : Prop :=
  ∃ t us, ts = t :: us ∧ begins t.kind = true

/-- What the tokens of a phrase begin with, if it cannot be empty. -/
def Phrase.Opens : Phrase σ → List (Token σ) → Prop
  | expression _, ts | operand, ts | bareArguments, ts => BeginsWith beginsExpression ts
  | primary, ts => BeginsWith beginsPrimary ts
  | callOrWord, ts | callable, ts => BeginsWith isName ts
  | arguments, ts | callOf _, ts => BeginsWith isParen ts
  | block _, ts => BeginsWith isBrace ts
  | lambda, ts => BeginsWith isBar ts
  | conditional sense, ts => BeginsWith (opensCondition sense) ts
  | statement, ts => BeginsWith beginsStatement ts
  | _, _ => True

namespace BeginsWith

variable {begins begins' : Kind → Bool} {t : Token σ} {ts us : List (Token σ)}

theorem cons (ht : begins t.kind = true) : BeginsWith begins (t :: us) := ⟨t, us, rfl, ht⟩

/-- What comes behind does not change how the tokens begin. -/
theorem append (h : BeginsWith begins ts) (us : List (Token σ)) :
    BeginsWith begins (ts ++ us) := by
  obtain ⟨t, vs, rfl, ht⟩ := h
  exact .cons ht

/-- What begins with a kind of one class does with one of a larger. -/
theorem mono (h : BeginsWith begins ts) (himp : ∀ k, begins k = true → begins' k = true) :
    BeginsWith begins' ts := by
  obtain ⟨t, vs, rfl, ht⟩ := h
  exact .cons (himp _ ht)

/-- What begins with a token is not empty. -/
theorem ne_nil (h : BeginsWith begins ts) : ts ≠ [] := by
  obtain ⟨t, vs, rfl, -⟩ := h
  exact List.cons_ne_nil t vs

/-- Tokens that begin so are not none. -/
theorem headKind (h : BeginsWith begins ts) :
    ∃ k, headKind ts = some k ∧ begins k = true := by
  obtain ⟨t, vs, rfl, ht⟩ := h
  exact ⟨t.kind, rfl, ht⟩

/-- A phrase begins with none of the tokens that its kind excludes. -/
theorem head_ne {k : Kind} (h : BeginsWith begins ts) (hk : begins k = false)
    (us : List (Token σ)) : CallGrammar.headKind (ts ++ us) ≠ some k := by
  obtain ⟨k', hk', hbegins⟩ := (h.append us).headKind
  rintro hk''
  rw [hk', Option.some.injEq] at hk''
  rw [hk'', hk] at hbegins
  cases hbegins

/-- Tokens that begin with a name. -/
theorem name (h : BeginsWith isName ts) (us : List (Token σ)) :
    ∃ text, CallGrammar.headKind (ts ++ us) = some (.name text) := by
  obtain ⟨k, hk, hbegins⟩ := (h.append us).headKind
  cases k <;> first | exact ⟨_, hk⟩ | cases hbegins

/-- A list of arguments begins with its parenthesis. -/
theorem paren (h : BeginsWith isParen ts) (us : List (Token σ)) :
    CallGrammar.headKind (ts ++ us) = some (.symbol .openParen) := by
  obtain ⟨k, hk, hbegins⟩ := (h.append us).headKind
  unfold isParen at hbegins
  split at hbegins
  · exact hk
  · cases hbegins

/-- A lambda begins with one bar or with two. -/
theorem bar (h : BeginsWith isBar ts) (us : List (Token σ)) :
    CallGrammar.headKind (ts ++ us) = some (.symbol .pipe) ∨
      CallGrammar.headKind (ts ++ us) = some (.symbol .pipePipe) := by
  obtain ⟨k, hk, hbegins⟩ := (h.append us).headKind
  unfold isBar at hbegins
  split at hbegins
  · exact .inl hk
  · exact .inr hk
  · cases hbegins

/-- Nothing that begins an expression is a line break. -/
theorem not_newline (h : BeginsWith beginsExpression ts) (us : List (Token σ)) :
    CallGrammar.headKind (ts ++ us) ≠ some .newline :=
  h.head_ne rfl us

end BeginsWith

theorem beginsPrimary_of_isName (k : Kind) (h : isName k = true) : beginsPrimary k = true := by
  cases k <;> first | rfl | cases h

/-- A primary expression is one without a sign. -/
theorem beginsExpression_of_beginsPrimary (k : Kind) (h : beginsPrimary k = true) :
    beginsExpression k = true := by
  rw [beginsExpression, h, Bool.true_or]

/-- A statement may be just an expression. -/
theorem beginsStatement_of_beginsExpression (k : Kind) (h : beginsExpression k = true) :
    beginsStatement k = true := by
  unfold beginsStatement
  split
  · rfl
  · rfl
  · exact h

theorem beginsStatement_of_isName (k : Kind) (h : isName k = true) : beginsStatement k = true := by
  cases k <;> first | rfl | cases h

theorem beginsPrimary_of_literal {k : Kind} {value : Literal} (h : Literal.ofKind? k = some value) :
    beginsPrimary k = true := by
  unfold Literal.ofKind? at h
  split at h <;> first | rfl | cases h

/-- The tokens of a phrase that cannot be empty begin as it does. -/
theorem Reads.opens [Location σ] {context : Context σ} {p : Phrase σ} {ts after : List (Token σ)}
    {v : p.Value} (h : Reads context p ts after v) : p.Opens ts := by
  induction h with
  | expression _ _ ihleft _ => exact ihleft.append _
  | sign ht _ _ =>
    exact .cons (by rw [beginsExpression, ht, Option.isSome_some, Bool.or_true])
  | operand _ _ ihfirst _ => exact (ihfirst.append _).mono beginsExpression_of_beginsPrimary
  | var ht => exact .cons (by rw [ht]; rfl)
  | reference ht => exact .cons (by rw [ht]; rfl)
  | literal ht => exact .cons (beginsPrimary_of_literal ht)
  | name _ ihname => exact ihname.mono beginsPrimary_of_isName
  | array hopener _ _ _ => exact .cons (by rw [hopener]; rfl)
  | hash hopener _ _ _ _ => exact .cons (by rw [hopener]; rfl)
  | parentheses hopener _ _ _ _ _ => exact .cons (by rw [hopener]; rfl)
  | arguments hopener _ _ _ => exact .cons (by rw [hopener]; rfl)
  | bareArguments _ _ ihfirst _ => exact ihfirst.append _
  | word ht _ => exact .cons (by rw [ht]; rfl)
  | call ht _ _ => exact .cons (by rw [ht]; rfl)
  | callOf _ _ ihargs _ =>
    have hargs : BeginsWith isParen _ := ihargs
    exact hargs.append _
  | lambdaNoList ht _ _ => exact .cons (by rw [ht]; rfl)
  | lambda hopener _ _ _ _ _ => exact .cons (by rw [hopener]; rfl)
  | block hopener _ _ _ => exact .cons (by rw [hopener]; rfl)
  | branching ht _ _ =>
    obtain ⟨ht, -⟩ | ⟨ht, -⟩ := ht
    · exact .cons (by rw [ht]; rfl)
    · exact .cons (by rw [ht]; rfl)
  | invocation _ ih => exact ih.mono beginsStatement_of_isName
  | callableValue _ _ ih _ => exact (ih.append _).mono beginsStatement_of_isName
  | value _ _ _ ih _ => exact (ih.append _).mono beginsStatement_of_beginsExpression
  | conditional ht _ _ _ _ _ _ => exact .cons ht
  | wholeCall ht _ _ _ _ _ => exact .cons (by rw [ht]; rfl)
  | callValue ht _ _ _ _ _ => exact .cons (by rw [ht]; rfl)
  | bareCall ht _ _ _ _ => exact .cons (by rw [ht]; rfl)
  | wordValue ht _ _ _ _ => exact .cons (by rw [ht]; rfl)
  | _ => trivial

/-- Statements have tokens. -/
theorem Reads.ne_nil_of_statements [Location σ] {context : Context σ} {ts after : List (Token σ)}
    {stmts : List (Stmt σ)} (h : Reads context .statements ts after stmts) (hne : stmts ≠ []) :
    ts ≠ [] := by
  cases h with
  | noStatements => exact absurd rfl hne
  | moreStatements hseps hfirst =>
    have happend := List.append_ne_nil_of_left_ne_nil hfirst.opens.ne_nil
    exact List.append_ne_nil_of_right_ne_nil _ (happend _)

/-- A source unit goes on to the end. -/
theorem Reads.after_eq_nil_of_program [Location σ] {context : Context σ}
    {ts after : List (Token σ)} {v : Program σ} (h : Reads context .program ts after v) :
    after = [] := by
  cases h with
  | noProgram => rfl
  | program => rfl

end CallGrammar
