import CallGrammar.Proofs.Reading.Complete
import CallGrammar.Proofs.Written

/-!
# CallGrammar.Proofs.RoundTrip

A writable tree comes back from its text, up to the places of its nodes.  The words of
the text derive the tree, node by node; the derivation is over tokens without places,
and the reading of the text itself goes in step with it.
-/

namespace CallGrammar

open Piece

variable {σ : Type} {calls : StatementCalls}

/-- The one place there is. -/
instance : Location Unit := ⟨fun _ _ => ()⟩

/-- What a source without places is read with. -/
def Context.bare (calls : StatementCalls) : Context Unit := ⟨(), calls⟩

/-! ## tokens of pieces -/

namespace Piece

/-- Whether what follows the pieces touches a token before it. -/
def touch (touching : Bool) : List Piece → Bool
  | [] => touching
  | space :: ps => touch false ps
  | word _ :: ps => touch true ps

variable {b : Bool} {ps qs : List Piece}

@[simp] theorem tokens_nil (b : Bool) : tokens b [] = [] := rfl

@[simp] theorem tokens_space (b : Bool) (ps : List Piece) :
    tokens b (space :: ps) = tokens false ps := rfl

@[simp] theorem tokens_word (b : Bool) (k : Kind) (ps : List Piece) :
    tokens b (word k :: ps) = ⟨k, (), b⟩ :: tokens true ps := rfl

@[simp] theorem tokens_symbol (b : Bool) (s : Symbol) (ps : List Piece) :
    tokens b (symbol s :: ps) = ⟨.symbol s, (), b⟩ :: tokens true ps := rfl

/-- The tokens of pieces one after the other. -/
@[simp] theorem tokens_append (b : Bool) (ps qs : List Piece) :
    tokens b (ps ++ qs) = tokens b ps ++ tokens (touch b ps) qs := by
  induction ps generalizing b with
  | nil => rfl
  | cons p ps ih =>
    cases p with
    | space => exact ih false
    | word k => exact congrArg _ (ih true)

/-- Whether the next token touches is told by the last piece. -/
theorem touch_append (b : Bool) (ps qs : List Piece) :
    touch b (ps ++ qs) = touch (touch b ps) qs := by
  induction ps generalizing b with
  | nil => rfl
  | cons p ps ih =>
    cases p with
    | space => exact ih false
    | word k => exact ih true

/-- What follows a group touches it. -/
@[simp] theorem touch_group (b : Bool) (ps : List Piece) : touch b (group ps) = true := by
  show touch true (ps ++ [symbol .closeParen]) = true
  rw [touch_append]
  rfl

end Piece

/-! ## where values end -/

/-- The tokens that may follow a value. -/
def endsExpression : Kind → Bool
  | .symbol .closeParen | .symbol .closeBracket | .symbol .closeBrace | .symbol .openBrace
  | .symbol .comma | .symbol .semicolon | .symbol .arrow | .symbol .assign => true
  | _ => false

theorem endsExpression_of_isBrace {k : Kind} (h : isBrace k = true) : endsExpression k = true := by
  unfold isBrace at h
  split at h
  · rfl
  · cases h

/-- A value ends before the tokens. -/
def Ends (after : List (Token Unit)) : Prop :=
  ∀ k, headKind after = some k → endsExpression k = true

namespace Ends

variable {after : List (Token Unit)} {context : Context Unit}

theorem cons {t : Token Unit} {ts : List (Token Unit)} (h : endsExpression t.kind = true) :
    Ends (t :: ts) := by
  intro k hk
  cases hk
  exact h

theorem head_ne (h : Ends after) {k : Kind} (hk : endsExpression k = false) :
    headKind after ≠ some k := by
  intro hhead
  rw [h k hhead] at hk
  cases hk

/-- At the end of an expression no suffix goes on. -/
theorem noSuffix (h : Ends after) (target : Expr Unit) :
    Reads context (.suffixes target) [] after target :=
  .noSuffix (h.head_ne rfl) fun hk => absurd hk (h.head_ne rfl)

/-- At the end of an expression no operator goes on. -/
theorem noOperator (h : Ends after) (floor : Nat) (left : Expr Unit) :
    Reads context (.operators floor left) [] after left := by
  apply Reads.noOperator
  intro op hop
  obtain ⟨k, hk, hop⟩ := Option.bind_eq_some_iff.1 hop
  have hends := h k hk
  rw [← BinaryOp.kind_of_ofKind? hop] at hends
  cases op <;> cases hends

end Ends

/-! ## values -/

/-- The pieces are read as the value wherever a value may end. -/
def ReadsValue (calls : StatementCalls) (ps : List Piece) (v : Expr Unit) : Prop :=
  ∀ b after, Ends after → Reads (.bare calls) (.expression 0) (tokens b ps) after v

def ReadsLambda (calls : StatementCalls) (ps : List Piece) (v : Option (Lambda Unit)) : Prop :=
  ∀ b after, Ends after → Reads (.bare calls) .optionalLambda (tokens b ps) after v

/-- The pieces are read as the elements up to the closing bracket of any list. -/
def ReadsElements (calls : StatementCalls) (ps : List Piece) (vs : List (Expr Unit)) : Prop :=
  ∀ construct b t after, t.kind = .symbol construct.closer → endsExpression t.kind = true →
    Reads (.bare calls) (.elements construct) (tokens b ps) (t :: after) vs

/-- A literal is read from its kind. -/
@[simp] theorem Literal.ofKind?_kind (value : Literal) : ofKind? value.kind = some value := by
  cases value with
  | boolean b => cases b <;> rfl
  | _ => rfl

theorem Expr.withSpan_unit (e : Expr Unit) : e.withSpan () = e := by
  cases e <;> rfl

namespace ReadsValue

variable {ps qs : List Piece} {v w : Expr Unit} {vs : List (Expr Unit)}
  {l : Option (Lambda Unit)} {after : List (Token Unit)}

/-- An operand before the end of an expression is a value. -/
theorem of_operand
    (h : ∀ b after, Ends after → Reads (.bare calls) .operand (tokens b ps) after v) :
    ReadsValue calls ps v := by
  intro b after hafter
  have hread : Reads (.bare calls) (.expression 0) (tokens b ps ++ []) after v :=
    .expression (h b after hafter) (hafter.noOperator 0 v)
  exact hread.of_eq (by simp)

theorem of_primary
    (h : ∀ b after, Ends after → Reads (.bare calls) .primary (tokens b ps) after v) :
    ReadsValue calls ps v := by
  apply of_operand
  intro b after hafter
  have hread : Reads (.bare calls) .operand (tokens b ps ++ []) after v :=
    .operand (h b after hafter) (hafter.noSuffix v)
  exact hread.of_eq (by simp)

/-- A value in parentheses is a primary, whatever follows. -/
theorem group (h : ReadsValue calls ps v) (b : Bool) (after : List (Token Unit)) :
    Reads (.bare calls) .primary (tokens b (Piece.group ps)) after v := by
  have hinner := h true (⟨.symbol .closeParen, (), touch true ps⟩ :: after) (.cons rfl)
  have hread : Reads (.bare calls) .primary (⟨.symbol .openParen, (), b⟩ ::
      ([] ++ (tokens true ps ++ ([] ++ [⟨.symbol .closeParen, (), touch true ps⟩])))) after
      (v.withSpan ()) :=
    .parentheses rfl nofun hinner nofun rfl
  rw [Expr.withSpan_unit] at hread
  exact hread.of_eq (by simp [Piece.group])

/-- A value in parentheses is the value. -/
theorem grouped (h : ReadsValue calls ps v) : ReadsValue calls (Piece.group ps) v :=
  of_primary fun b after _ => h.group b after

/-- A value in parentheses before what no suffix begins with. -/
theorem group_operand (h : ReadsValue calls ps v) (b : Bool)
    (hdot : headKind after ≠ some (.symbol .dot))
    (hbracket : headKind after ≠ some (.symbol .openBracket)) :
    Reads (.bare calls) .operand (tokens b (Piece.group ps)) after v := by
  have hread : Reads (.bare calls) .operand (tokens b (Piece.group ps) ++ []) after v :=
    .operand (h.group b after) (.noSuffix hdot fun hk => absurd hk hbracket)
  exact hread.of_eq (by simp)

/-! ### words -/

theorem word (name : String) : ReadsValue calls [.word (.name name)] (.word () name) := by
  apply of_primary
  intro b after hafter
  have hword : Reads (.bare calls) .callOrWord [⟨.name name, (), b⟩] after (.word () name) :=
    .word rfl (hafter.head_ne rfl)
  exact .name hword

theorem reference (name : String) :
    ReadsValue calls [.word (.reference name)] (.reference () name) :=
  of_primary fun _ _ _ => .reference rfl

theorem var (name : String) : ReadsValue calls [.word (.var name)] (.var () name) :=
  of_primary fun _ _ _ => .var rfl

theorem literal (value : Literal) : ReadsValue calls [.word value.kind] (.literal () value) :=
  of_primary fun _ _ _ => .literal value.ofKind?_kind

/-! ### brackets -/

/-- Elements in brackets. -/
theorem array (h : ReadsElements calls ps vs) :
    ReadsValue calls (symbol .openBracket :: (ps ++ [symbol .closeBracket])) (.array () vs) := by
  apply of_primary
  intro b after _
  have hitems := h .array true ⟨.symbol .closeBracket, (), touch true ps⟩ after rfl rfl
  have hread : Reads (.bare calls) .primary (⟨.symbol .openBracket, (), b⟩ ::
      (tokens true ps ++ [⟨.symbol .closeBracket, (), touch true ps⟩])) after (.array () vs) :=
    .array rfl hitems rfl
  exact hread.of_eq (by simp)

/-- The keys touch the parenthesis that the target ends with. -/
theorem access (h : ReadsValue calls ps v) (h' : ReadsElements calls qs vs) (hne : vs ≠ []) :
    ReadsValue calls (Piece.group ps ++ symbol .openBracket :: (qs ++ [symbol .closeBracket]))
      (.access () v vs) := by
  apply of_operand
  intro b after hafter
  have hkeys := h' .access true ⟨.symbol .closeBracket, (), touch true qs⟩ ([] ++ after) rfl
    rfl
  have hsuffix : Reads (.bare calls) (.suffixes v) (⟨.symbol .openBracket, (), true⟩ ::
      (tokens true qs ++ ⟨.symbol .closeBracket, (), touch true qs⟩ :: [])) after
      (.access () v vs) :=
    .access rfl rfl hkeys rfl hne (hafter.noSuffix _)
  have hread := Reads.operand (h.group b _) hsuffix
  exact hread.of_eq (by simp)

/-! ### calls -/

theorem arguments (h : ReadsElements calls ps vs) (after : List (Token Unit)) :
    Reads (.bare calls) .arguments (⟨.symbol .openParen, (), true⟩ ::
      (tokens true ps ++ [⟨.symbol .closeParen, (), touch true ps⟩])) after vs := by
  have helements := h .argumentList true ⟨.symbol .closeParen, (), touch true ps⟩ after rfl rfl
  exact .arguments rfl helements rfl

/-- The arguments and the lambda after a name. -/
theorem called (name : String) (h : ReadsElements calls ps vs) (hl : ReadsLambda calls qs l)
    (hafter : Ends after) :
    Reads (.bare calls) (.callOf ⟨name, ()⟩)
      (tokens true (symbol .openParen :: (ps ++ symbol .closeParen :: qs))) after
      (.call () ⟨name, ()⟩ vs l) :=
  (Reads.callOf (arguments h _) (hl true after hafter)).of_eq (by simp)

/-- A name with arguments in parentheses and a lambda. -/
theorem call (name : String) (h : ReadsElements calls ps vs) (hl : ReadsLambda calls qs l) :
    ReadsValue calls (Piece.called name ps qs) (.call () ⟨name, ()⟩ vs l) := by
  apply of_primary
  intro b after hafter
  have hcall : Reads (.bare calls) .callOrWord (⟨.name name, (), b⟩ ::
      tokens true (symbol .openParen :: (ps ++ symbol .closeParen :: qs))) after
      (.call () ⟨name, ()⟩ vs l) :=
    .call rfl (called name h hl hafter)
  exact .name hcall

/-- A value in parentheses, with a method of it. -/
theorem method (h : ReadsValue calls ps v) (name : String) {args : List Piece}
    (hargs : ReadsElements calls args vs) (hl : ReadsLambda calls qs l) :
    ReadsValue calls (Piece.group ps ++ symbol .dot :: Piece.called name args qs)
      (.method () v ⟨name, ()⟩ vs l) := by
  apply of_operand
  intro b after hafter
  have hsome : Reads (.bare calls) .optionalArguments (⟨.symbol .openParen, (), true⟩ ::
      (tokens true args ++ [⟨.symbol .closeParen, (), touch true args⟩]))
      (tokens true qs ++ ([] ++ after)) vs :=
    .someArguments (arguments hargs _)
  have hsuffix : Reads (.bare calls) (.suffixes v) (⟨.symbol .dot, (), true⟩ ::
      ⟨.name name, (), true⟩ :: ((⟨.symbol .openParen, (), true⟩ ::
      (tokens true args ++ [⟨.symbol .closeParen, (), touch true args⟩])) ++
      (tokens true qs ++ []))) after (.method () v ⟨name, ()⟩ vs l) :=
    .method rfl rfl hsome (hl true after hafter) (hafter.noSuffix _)
  have hread := Reads.operand (h.group b _) hsuffix
  exact hread.of_eq (by simp [Piece.called])

/-! ### operators -/

/-- A sign before a value in parentheses. -/
theorem sign (h : ReadsValue calls ps v) (op : UnaryOp) :
    ReadsValue calls (.word op.kind :: Piece.group ps) (.unary () op v) := by
  apply of_operand
  intro b after hafter
  have hinner := h.group_operand true (hafter.head_ne rfl) (hafter.head_ne rfl)
  have hread : Reads (.bare calls) .operand
      (⟨op.kind, (), b⟩ :: tokens true (Piece.group ps)) after (.unary () op v) :=
    .sign op.ofKind?_kind hinner
  exact hread

/-- Both operands are in parentheses, so the level of the operator is of no account. -/
theorem binary (h : ReadsValue calls ps v) (op : BinaryOp) (h' : ReadsValue calls qs w) :
    ReadsValue calls
      (Piece.group ps ++ .space :: .word op.kind :: .space :: Piece.group qs)
      (.binary () op v w) := by
  intro b after hafter
  have hhead : op.kind ≠ .symbol .dot ∧ op.kind ≠ .symbol .openBracket := by
    cases op <;> exact ⟨nofun, nofun⟩
  have hleft : Reads (.bare calls) .operand (tokens b (Piece.group ps))
      (⟨op.kind, (), false⟩ :: (([] ++ ((tokens false (Piece.group qs) ++ []) ++ [])) ++ after)) v :=
    h.group_operand b (fun hk => hhead.1 (Option.some.inj hk))
      (fun hk => hhead.2 (Option.some.inj hk))
  have hright : Reads (.bare calls) (.expression (op.level + 1))
      (tokens false (Piece.group qs) ++ []) after w :=
    .expression (h'.group_operand false (hafter.head_ne rfl) (hafter.head_ne rfl))
      (hafter.noOperator _ _)
  have hop : Reads (.bare calls) (.operators 0 v) (⟨op.kind, (), false⟩ ::
      ([] ++ ((tokens false (Piece.group qs) ++ []) ++ []))) after (.binary () op v w) :=
    .operator op.ofKind?_kind (Nat.zero_le _) nofun hright (hafter.noOperator 0 _)
  have hread := Reads.expression hleft hop
  exact hread.of_eq (by simp)

end ReadsValue

/-! ## lists -/

namespace ReadsElements

variable {ps qs : List Piece} {v : Expr Unit} {vs : List (Expr Unit)}

theorem nil : ReadsElements calls [] [] := by
  intro construct b t after ht _
  have hcloser : ∀ k, headKind (t :: after) = some k → k = .symbol construct.closer := by
    intro k hk
    cases hk
    exact ht
  exact .noElements nofun hcloser

theorem single (h : ReadsValue calls ps v) : ReadsElements calls ps [v] := by
  intro construct b t after ht hends
  have hafter : Ends (t :: after) := .cons hends
  have hcomma : headKind (t :: after) ≠ some (.symbol .comma) := by
    cases construct <;> simp [ht, Construct.closer]
  have hread : Reads (.bare calls) (.elements construct) ([] ++ (tokens b ps ++ [])) (t :: after)
      [v] :=
    .lastElement nofun (h b _ hafter) nofun (hafter.head_ne rfl) hcomma
  exact hread.of_eq (by simp)

theorem cons (h : ReadsValue calls ps v) (h' : ReadsElements calls qs vs) :
    ReadsElements calls (ps ++ symbol .comma :: .space :: qs) (v :: vs) := by
  intro construct b t after ht hends
  have hitem := h b (⟨.symbol .comma, (), touch b ps⟩ :: (tokens false qs ++ t :: after))
    (.cons rfl)
  have hread : Reads (.bare calls) (.elements construct)
      ([] ++ (tokens b ps ++ ([] ++ ⟨.symbol .comma, (), touch b ps⟩ :: tokens false qs)))
      (t :: after) (v :: vs) :=
    .moreElements nofun hitem nofun rfl (h' construct false t after ht hends)
  exact hread.of_eq (by simp)

end ReadsElements

/-- The pieces are read as the entries up to a closing brace. -/
def ReadsEntries (calls : StatementCalls) (ps : List Piece) (es : List (Entry Unit)) : Prop :=
  ∀ b t after, t.kind = .symbol .closeBrace →
    Reads (.bare calls) .entries (tokens b ps) (t :: after) es

namespace ReadsEntries

variable {ps qs rest : List Piece} {v w : Expr Unit} {es : List (Entry Unit)}

theorem nil : ReadsEntries calls [] [] := by
  intro b t after ht
  have hafter : ∀ k, headKind (t :: after) = some k → k = .symbol .closeBrace := by
    intro k hk
    cases hk
    exact ht
  exact .noEntries hafter

theorem single (h : ReadsValue calls ps v) (h' : ReadsValue calls qs w) :
    ReadsEntries calls (ps ++ .space :: symbol .arrow :: .space :: qs) [⟨v, w⟩] := by
  intro b t after ht
  have hkey := h b (⟨.symbol .arrow, (), false⟩ :: (tokens false qs ++ t :: after)) (.cons rfl)
  have hends : Ends (t :: after) := .cons (by rw [ht]; rfl)
  have hcomma : headKind (t :: after) ≠ some (.symbol .comma) := by simp [ht]
  have hread : Reads (.bare calls) .entries (tokens b ps ++ ([] ++ ⟨.symbol .arrow, (), false⟩ ::
      ([] ++ (tokens false qs ++ [])))) (t :: after) [⟨v, w⟩] :=
    .lastEntry hkey nofun rfl nofun (h' false _ hends) nofun (hends.head_ne rfl) hcomma
  exact hread.of_eq (by simp)

theorem cons (h : ReadsValue calls ps v) (h' : ReadsValue calls qs w)
    (hrest : ReadsEntries calls rest es) :
    ReadsEntries calls ((ps ++ .space :: symbol .arrow :: .space :: qs) ++
      symbol .comma :: .space :: rest) (⟨v, w⟩ :: es) := by
  intro b t after ht
  have hmore := hrest false t after ht
  have hnewline := hmore.not_newline_of_entries ht
  have hvalue := h' false
    (⟨.symbol .comma, (), touch false qs⟩ :: (tokens false rest ++ t :: after)) (.cons rfl)
  have hkey := h b (⟨.symbol .arrow, (), false⟩ :: (tokens false qs ++
    ⟨.symbol .comma, (), touch false qs⟩ :: (tokens false rest ++ t :: after))) (.cons rfl)
  have hread : Reads (.bare calls) .entries (tokens b ps ++ ([] ++ ⟨.symbol .arrow, (), false⟩ ::
      ([] ++ (tokens false qs ++ ([] ++ ⟨.symbol .comma, (), touch false qs⟩ ::
      ([] ++ tokens false rest)))))) (t :: after) (⟨v, w⟩ :: es) :=
    .moreEntries hkey nofun rfl nofun hvalue nofun rfl nofun hnewline hmore
  exact hread.of_eq (by simp)

/-- Entries in braces. -/
theorem hash (h : ReadsEntries calls ps es) :
    ReadsValue calls (symbol .openBrace :: (ps ++ [symbol .closeBrace])) (.hash () es) := by
  apply ReadsValue.of_primary
  intro b after _
  have hfound := h true ⟨.symbol .closeBrace, (), touch true ps⟩ after rfl
  have hread : Reads (.bare calls) .primary (⟨.symbol .openBrace, (), b⟩ ::
      ([] ++ (tokens true ps ++ [⟨.symbol .closeBrace, (), touch true ps⟩]))) after
      (.hash () es) :=
    .hash rfl nofun hfound rfl
  exact hread.of_eq (by simp)

end ReadsEntries

/-! ## blocks and lambdas -/

/-- The pieces are read as the statements of a block or of a source unit. -/
def ReadsStmts (calls : StatementCalls) (ps : List Piece) (ss : List (Stmt Unit)) : Prop :=
  ∀ seps b after, Separators seps →
    (∀ k, headKind after = some k → k = .symbol .closeBrace) →
    Reads (.bare calls) .statements (seps ++ tokens b ps) after ss

def ReadsBlock (calls : StatementCalls) (ps : List Piece) (v : Block Unit) : Prop :=
  ∀ construct b after, construct.closer = .closeBrace →
    Reads (.bare calls) (.block construct) (tokens b ps) after v

theorem reads_parameters {p : Ident σ} {params : List (Ident σ)} {b : Bool} {t : Token Unit}
    {after : List (Token Unit)} (ht : t.kind = .symbol .pipe) :
    Reads (.bare calls) (.parameters ())
      (tokens b (.word (.var p.name) :: moreParameters params)) (t :: after)
      ((p :: params).map (Ident.map fun _ => ())) := by
  induction params generalizing p b with
  | nil =>
    have hread : Reads (.bare calls) (.parameters ()) ([] ++ ⟨.var p.name, (), b⟩ :: [])
        (t :: after) [⟨p.name, ()⟩] :=
      .lastParameter nofun rfl nofun (congrArg some ht)
    exact hread
  | cons q params ih =>
    have hread : Reads (.bare calls) (.parameters ()) ([] ++ ⟨.var p.name, (), b⟩ ::
        ([] ++ ⟨.symbol .comma, (), true⟩ ::
          tokens false (.word (.var q.name) :: moreParameters params)))
        (t :: after) (⟨p.name, ()⟩ :: (q :: params).map (Ident.map fun _ => ())) :=
      .moreParameters nofun rfl nofun rfl ih
    exact hread

namespace ReadsBlock

variable {ps : List Piece} {v : Block Unit} {ss : List (Stmt Unit)}

theorem lambda (params : List (Ident σ)) (h : ReadsBlock calls ps v) :
    ReadsLambda calls (.space :: (parameters params ++ .space :: ps))
      (some ⟨(), params.map (Ident.map fun _ => ()), v⟩) := by
  intro b after _
  have hbody : ∀ names, Reads (.bare calls) (.lambdaBody () names) ([] ++ tokens false ps) after
      ⟨(), names, v⟩ :=
    fun names => .lambdaBody nofun (h .lambdaBody false after rfl)
  cases params with
  | nil =>
    have hread : Reads (.bare calls) .lambda (⟨.symbol .pipePipe, (), false⟩ ::
        ([] ++ tokens false ps)) after ⟨(), [], v⟩ :=
      .lambdaNoList rfl (hbody [])
    exact .someLambda (hread.of_eq (by simp [parameters]))
  | cons p params =>
    have hread : Reads (.bare calls) .lambda (⟨.symbol .pipe, (), false⟩ ::
        (tokens true (.word (.var p.name) :: moreParameters params) ++
          ⟨.symbol .pipe, (), touch true (moreParameters params)⟩ :: ([] ++ tokens false ps)))
        after ⟨(), (p :: params).map (Ident.map fun _ => ()), v⟩ :=
      .lambda rfl (reads_parameters rfl) rfl (hbody _)
    exact .someLambda (hread.of_eq (by simp [parameters]))

theorem nil : ReadsBlock calls [symbol .openBrace, .space, symbol .closeBrace] ⟨(), []⟩ := by
  intro construct b after hconstruct
  have hstmts : Reads (.bare calls) .statements [] (⟨.symbol .closeBrace, (), false⟩ :: after) [] :=
    .noStatements nofun fun k hk => (Option.some.inj hk).symm
  have hread : Reads (.bare calls) (.block construct) (⟨.symbol .openBrace, (), b⟩ ::
      ([] ++ [⟨.symbol .closeBrace, (), false⟩])) after ⟨(), []⟩ :=
    .block rfl hstmts (by rw [hconstruct])
  exact hread

/-- Statements in braces. -/
theorem of_stmts (h : ReadsStmts calls ps ss) :
    ReadsBlock calls (symbol .openBrace :: .space :: (ps ++ [.space, symbol .closeBrace]))
      ⟨(), ss⟩ := by
  intro construct b after hconstruct
  have hstmts := h [] false (⟨.symbol .closeBrace, (), false⟩ :: after) nofun
    fun k hk => (Option.some.inj hk).symm
  have hread : Reads (.bare calls) (.block construct) (⟨.symbol .openBrace, (), b⟩ ::
      (([] ++ tokens false ps) ++ [⟨.symbol .closeBrace, (), false⟩])) after ⟨(), ss⟩ :=
    .block rfl hstmts (by rw [hconstruct])
  exact hread.of_eq (by simp)

end ReadsBlock

theorem ReadsLambda.none : ReadsLambda calls [] none :=
  fun _ _ hafter => .noLambda (hafter.head_ne rfl) (hafter.head_ne rfl)

/-! ## statements -/

/-- A statement ends before the tokens. -/
def EndsStmt (after : List (Token Unit)) : Prop :=
  ∀ k, headKind after = some k → k = .symbol .semicolon ∨ k = .symbol .closeBrace

/-- The pieces are read as the statement wherever a statement may end. -/
def ReadsStmt (calls : StatementCalls) (ps : List Piece) (s : Stmt Unit) : Prop :=
  ∀ b after, EndsStmt after → Reads (.bare calls) .statement (tokens b ps) after s

theorem EndsStmt.ends {after : List (Token Unit)} (h : EndsStmt after) : Ends after := by
  intro k hk
  obtain rfl | rfl := h k hk <;> rfl

theorem EndsStmt.head_ne {after : List (Token Unit)} {k : Kind} (h : EndsStmt after)
    (hsemicolon : k ≠ .symbol .semicolon) (hbrace : k ≠ .symbol .closeBrace) :
    headKind after ≠ some k := by
  intro hk
  obtain hk | hk := h k hk
  · exact hsemicolon hk
  · exact hbrace hk

namespace ReadsStmt

variable {ps qs : List Piece} {v w : Expr Unit} {vs : List (Expr Unit)}
  {l : Option (Lambda Unit)}

/-- A call as a statement. -/
theorem invoke (name : String) (h : ReadsElements calls ps vs) (hl : ReadsLambda calls qs l) :
    ReadsStmt calls (called name ps qs) (.invoke () ⟨name, ()⟩ vs l) := by
  intro b after hafter
  have hends := hafter.ends
  have hassign : headKind after ≠ some (.symbol .assign) := hafter.head_ne nofun nofun
  have hcall := ReadsValue.called name h hl hends
  have hrest : Reads (.bare calls) (.continued (.call () ⟨name, ()⟩ vs l)) ([] ++ []) after
      (.call () ⟨name, ()⟩ vs l) :=
    .continued (hends.noSuffix _) (hends.noOperator 0 _)
  have hread : Reads (.bare calls) .callable (⟨.name name, (), b⟩ ::
      (tokens true (symbol .openParen :: (ps ++ symbol .closeParen :: qs)) ++ ([] ++ []))) after
      (.statement (.invoke () ⟨name, ()⟩ vs l)) :=
    .wholeCall rfl hcall hrest hassign
  exact .invocation (hread.of_eq (by simp [called]))

/-- A statement that is a value in parentheses. -/
theorem value (h : ReadsValue calls ps v) : ReadsStmt calls (group ps) (.expr () v) := by
  intro b after hafter
  have hends := hafter.ends
  have hassign : headKind after ≠ some (.symbol .assign) := hafter.head_ne nofun nofun
  have hread : Reads (.bare calls) .statement (tokens b (group ps) ++ []) after (.expr () v) :=
    .value (fun name => nofun) (h.grouped b after hends) (.noAssignment hassign)
  exact hread.of_eq (by simp)

/-- A target that begins with no name, and its value. -/
theorem assign (h : ReadsValue calls ps v) (hv : v.isAssignable = true)
    (hhead : ∀ name qs, ps ≠ .word (.name name) :: qs) (hne : Stands ps)
    (h' : ReadsValue calls qs w) :
    ReadsStmt calls (ps ++ .space :: symbol .assign :: .space :: qs) (.assign () v w) := by
  intro b after hafter
  obtain ⟨k, rest, rfl⟩ := hne.opens
  have hname : ∀ name, headKind (tokens b (.word k :: rest)) ≠ some (.name name) := by
    intro name hk
    cases hk
    exact hhead name rest rfl
  have hassign : Reads (.bare calls) (.valueStatement v) (⟨.symbol .assign, (), false⟩ ::
      ([] ++ tokens false qs)) after (.assign () v w) :=
    .assignment rfl hv nofun (h' false after hafter.ends)
  have hread := Reads.value hname (h b _ (.cons rfl)) hassign
  exact hread.of_eq (by simp)

end ReadsStmt

/-- The pieces are read as the branch for the other case. -/
def ReadsElse (calls : StatementCalls) (ps : List Piece) (v : Option (Block Unit)) : Prop :=
  ∀ sense b after, EndsStmt after → Reads (.bare calls) (.alternative sense) (tokens b ps) after v

namespace ReadsElse

variable {ps qs rest : List Piece} {c : Expr Unit} {v w : Block Unit} {e : Option (Block Unit)}

theorem none : ReadsElse calls [] none := by
  intro sense b after hafter
  have hhead : headKindPastNewlines after = headKind after := by
    have hnewline : headKind after ≠ some .newline := hafter.ends.head_ne rfl
    have hnil : Newlines ([] : List (Token Unit)) := nofun
    exact headKindPastNewlines_append hnil hnewline
  have helsif : headKind after ≠ some (.keyword .elsifWord) := hafter.ends.head_ne rfl
  have helse : headKind after ≠ some (.keyword .elseWord) := hafter.ends.head_ne rfl
  rw [← hhead] at helsif helse
  exact .noAlternative (fun _ => helsif) helse

theorem some (h : ReadsBlock calls ps v) :
    ReadsElse calls (.space :: .word (.keyword .elseWord) :: .space :: ps) (some v) := by
  intro sense b after _
  have hread : Reads (.bare calls) (.alternative sense)
      ([] ++ ⟨.keyword .elseWord, (), false⟩ :: tokens false ps) after (Option.some v) :=
    .elseAlternative nofun rfl (h .elseBody false after rfl)
  exact hread

/-- A condition in parentheses, its branch and the alternative. -/
theorem conditional (sense : Sense) (hc : ReadsValue calls ps c) (h : ReadsBlock calls qs v)
    (he : ReadsElse calls rest e) :
    ReadsStmt calls (.word (.keyword sense.keyword) :: .space ::
      (group ps ++ .space :: (qs ++ rest))) (.conditional () sense c v e) := by
  intro b after hafter
  have hthen := h (Grammar.branchConstruct sense) false (tokens (touch false qs) rest ++ after)
    (Grammar.closer_branchConstruct sense)
  have hends : Ends (tokens false qs ++ (tokens (touch false qs) rest ++ after)) := by
    obtain ⟨t, ts, hts, ht⟩ := hthen.opens
    rw [hts]
    exact .cons (endsExpression_of_isBrace ht)
  have hopens : opensCondition sense (.keyword sense.keyword) = true := by cases sense <;> rfl
  have hread : Reads (.bare calls) (.conditional sense) (⟨.keyword sense.keyword, (), b⟩ ::
      (tokens false (group ps) ++ (tokens false qs ++ tokens (touch false qs) rest))) after
      (.conditional () sense c v e) :=
    .conditional hopens (hc.grouped false _ hends) hthen (he sense _ after hafter)
  have hbranch : sense.keyword = .ifWord ∧ sense = .ifTrue ∨
      sense.keyword = .unlessWord ∧ sense = .unlessTrue := by
    cases sense
    · exact .inl ⟨rfl, rfl⟩
    · exact .inr ⟨rfl, rfl⟩
  have hstmt : Reads (.bare calls) .statement (⟨.keyword sense.keyword, (), b⟩ ::
      (tokens false (group ps) ++ (tokens false qs ++ tokens (touch false qs) rest))) after
      (.conditional () sense c v e) :=
    .branching (hbranch.imp (.imp_left (congrArg _)) (.imp_left (congrArg _))) hread
  exact hstmt.of_eq (by simp)

end ReadsElse

namespace ReadsStmts

variable {ps qs : List Piece} {s : Stmt Unit} {ss : List (Stmt Unit)}

theorem nil : ReadsStmts calls [] [] := by
  intro seps b after hseps hafter
  have hread : Reads (.bare calls) .statements seps after [] := .noStatements hseps hafter
  exact hread.of_eq (by simp)

theorem single (h : ReadsStmt calls ps s) : ReadsStmts calls ps [s] := by
  intro seps b after hseps hafter
  have hends : EndsStmt after := fun k hk => .inr (hafter k hk)
  have hread : Reads (.bare calls) .statements (seps ++ (tokens b ps ++ [])) after [s] :=
    .moreStatements hseps (h b after hends) (hends.head_ne nofun nofun) (.noStatements nofun hafter)
  exact hread.of_eq (by simp)

theorem cons (h : ReadsStmt calls ps s) (h' : ReadsStmts calls qs ss) :
    ReadsStmts calls (ps ++ symbol .semicolon :: qs) (s :: ss) := by
  intro seps b after hseps hafter
  have hsep : Separators [(⟨.symbol .semicolon, (), touch b ps⟩ : Token Unit)] := by
    intro t ht
    obtain rfl := List.mem_singleton.1 ht
    rfl
  have hrest := h' _ true after hsep hafter
  have hends : EndsStmt (⟨.symbol .semicolon, (), touch b ps⟩ :: (tokens true qs ++ after)) :=
    fun k hk => .inl (Option.some.inj hk).symm
  have hread : Reads (.bare calls) .statements (seps ++ (tokens b ps ++
      ([⟨.symbol .semicolon, (), touch b ps⟩] ++ tokens true qs))) after (s :: ss) :=
    .moreStatements hseps (h b _ hends) nofun hrest
  exact hread.of_eq (by simp)

end ReadsStmts

/-! ## every tree -/

/-- What is assigned does not begin with a name. -/
theorem Expr.pieces_ne_name {target : Expr σ} (h : target.isAssignable = true) (name : String)
    (qs : List Piece) : target.pieces ≠ .word (.name name) :: qs := by
  cases target with
  | var span name' =>
    rw [Expr.pieces]
    exact nofun
  | access span target keys =>
    rw [Expr.pieces]
    exact nofun
  | _ => cases h

mutual

/-- The text of an expression is read as it. -/
theorem Expr.reads : (e : Expr σ) → e.Writable → ReadsValue calls e.pieces (e.map fun _ => ())
  | .call _ callee args lambda, ⟨_, hargs, hlambda⟩ => by
    rw [Expr.pieces, Expr.map]
    exact .call callee.name (exprs_read args hargs) (lambda_reads lambda hlambda)
  | .method _ receiver callee args lambda, ⟨hreceiver, _, hargs, hlambda⟩ => by
    rw [Expr.pieces, Expr.map]
    exact .method (receiver.reads hreceiver) callee.name (exprs_read args hargs)
      (lambda_reads lambda hlambda)
  | .word _ name, _ => by
    rw [Expr.pieces, Expr.map]
    exact .word name
  | .reference _ name, _ => by
    rw [Expr.pieces, Expr.map]
    exact .reference name
  | .var _ name, _ => by
    rw [Expr.pieces, Expr.map]
    exact .var name
  | .literal _ value, _ => by
    rw [Expr.pieces, Expr.map]
    exact .literal value
  | .array _ items, hitems => by
    rw [Expr.pieces, Expr.map]
    exact .array (exprs_read items hitems)
  | .hash _ entries, hentries => by
    rw [Expr.pieces, Expr.map]
    exact (entries_read entries hentries).hash
  | .access _ target keys, ⟨htarget, hne, hkeys⟩ => by
    have hne : mapExprs (fun _ => ()) keys ≠ [] := by simpa using hne
    rw [Expr.pieces, Expr.map]
    exact .access (target.reads htarget) (exprs_read keys hkeys) hne
  | .binary _ op left right, ⟨hleft, hright⟩ => by
    rw [Expr.pieces, Expr.map]
    exact .binary (left.reads hleft) op (right.reads hright)
  | .unary _ op operand, hoperand => by
    rw [Expr.pieces, Expr.map]
    exact .sign (operand.reads hoperand) op

theorem exprs_read : (es : List (Expr σ)) → exprsWritable es →
    ReadsElements calls (exprsPieces es) (mapExprs (fun _ => ()) es)
  | [], _ => by
    rw [exprsPieces, mapExprs]
    exact .nil
  | [e], ⟨he, _⟩ => by
    rw [exprsPieces, mapExprs, mapExprs]
    exact .single (e.reads he)
  | e :: e' :: es, ⟨he, hes⟩ => by
    have hrest := exprs_read (e' :: es) hes
    rw [exprsPieces, mapExprs]
    · exact .cons (e.reads he) hrest
    · exact nofun

theorem entries_read : (es : List (Entry σ)) → entriesWritable es →
    ReadsEntries calls (entriesPieces es) (mapEntries (fun _ => ()) es)
  | [], _ => by
    rw [entriesPieces, mapEntries]
    exact .nil
  | [⟨key, value⟩], ⟨⟨hkey, hvalue⟩, _⟩ => by
    rw [entriesPieces, mapEntries, mapEntries, Entry.pieces, Entry.map]
    exact .single (key.reads hkey) (value.reads hvalue)
  | ⟨key, value⟩ :: e' :: es, ⟨⟨hkey, hvalue⟩, hes⟩ => by
    have hrest := entries_read (e' :: es) hes
    rw [entriesPieces, mapEntries, Entry.pieces, Entry.map]
    · exact .cons (key.reads hkey) (value.reads hvalue) hrest
    · exact nofun

theorem lambda_reads : (l : Option (Lambda σ)) → lambdaWritable l →
    ReadsLambda calls (lambdaPieces l) (mapLambda (fun _ => ()) l)
  | none, _ => by
    rw [lambdaPieces, mapLambda]
    exact .none
  | some ⟨_, params, body⟩, ⟨_, hbody⟩ => by
    rw [lambdaPieces, mapLambda, Lambda.pieces, Lambda.map]
    exact (body.reads hbody).lambda params

/-- The text of a block is read as it. -/
theorem Block.reads : (b : Block σ) → b.Writable → ReadsBlock calls b.pieces (b.map fun _ => ())
  | ⟨_, []⟩, _ => by
    rw [Block.pieces, Block.map, mapStmts]
    exact .nil
  | ⟨_, s :: ss⟩, hstmts => by
    have hbody := stmts_read (s :: ss) hstmts
    rw [Block.pieces, Block.map]
    · exact .of_stmts hbody
    · exact nofun

theorem else_reads : (b : Option (Block σ)) → elseWritable b →
    ReadsElse calls (elsePieces b) (mapBlock (fun _ => ()) b)
  | none, _ => by
    rw [elsePieces, mapBlock]
    exact .none
  | some b, hb => by
    rw [elsePieces, mapBlock]
    exact .some (b.reads hb)

/-- The text of a statement is read as it. -/
theorem Stmt.reads : (s : Stmt σ) → s.Writable → ReadsStmt calls s.pieces (s.map fun _ => ())
  | .invoke _ callee args lambda, ⟨_, hargs, hlambda⟩ => by
    rw [Stmt.pieces, Stmt.map]
    exact .invoke callee.name (exprs_read args hargs) (lambda_reads lambda hlambda)
  | .assign _ target value, ⟨hassignable, htarget, hvalue⟩ => by
    have hmap : (target.map fun _ => ()).isAssignable = true := by simpa using hassignable
    rw [Stmt.pieces, Stmt.map]
    exact .assign (target.reads htarget) hmap (target.pieces_ne_name hassignable)
      (target.stands htarget) (value.reads hvalue)
  | .conditional _ sense condition thenBranch elseBranch, ⟨hcondition, hthen, helse⟩ => by
    rw [Stmt.pieces, Stmt.map]
    exact (else_reads elseBranch helse).conditional sense (condition.reads hcondition)
      (thenBranch.reads hthen)
  | .expr _ value, hvalue => by
    rw [Stmt.pieces, Stmt.map]
    exact .value (value.reads hvalue)

theorem stmts_read : (ss : List (Stmt σ)) → stmtsWritable ss →
    ReadsStmts calls (stmtsPieces ss) (mapStmts (fun _ => ()) ss)
  | [], _ => by
    rw [stmtsPieces, mapStmts]
    exact .nil
  | [s], ⟨hs, _⟩ => by
    rw [stmtsPieces, mapStmts, mapStmts]
    exact .single (s.reads hs)
  | s :: s' :: ss, ⟨hs, hss⟩ => by
    have hrest := stmts_read (s' :: ss) hss
    rw [stmtsPieces, mapStmts]
    · exact .cons (s.reads hs) hrest
    · exact nofun

end

/-! ## whole sources -/

/-- The words of a writable source unit derive it. -/
theorem Program.reads {p : Program σ} (h : p.Writable) :
    Reads (.bare calls) .program (tokens false (stmtsPieces p.body.stmts)) [] p.shape := by
  obtain ⟨⟨span, stmts⟩⟩ := p
  have hstmts : ReadsStmts calls (stmtsPieces stmts) (mapStmts (fun _ => ()) stmts) :=
    stmts_read stmts h
  have hread := hstmts [] false [] nofun nofun
  cases stmts with
  | nil =>
    rw [mapStmts] at hread
    exact .noProgram hread
  | cons s ss =>
    have hne : mapStmts (fun _ => ()) (s :: ss) ≠ [] := by
      rw [mapStmts]
      exact nofun
    exact .program hread hne

/-- A source and its tokens without places. -/
def Lockstep.bare (context : Context Span) : Lockstep Span Unit where
  move _ := ()
  first := context
  second := .bare context.calls
  merge _ _ := rfl
  finish := rfl
  calls _ hname := hname

/-- The parser before the first token of a source, without places. -/
def Parser.bare (calls : StatementCalls) (source : String) : Parser Unit where
  context := .bare calls
  cursor := .start ((Token.significant (Token.ofText source)).map (Token.map fun _ => ()))

/-- A source is read as its tokens are read without their places. -/
theorem parse_of_bare {source : String} {v : Program Unit}
    (h : (Parser.bare calls source).program.1 = .ok v) :
    ∃ q, parse calls source = .ok q ∧ q.shape = v := by
  have hc : (Parser.ofSource calls source).cursor.Alike (fun _ => ())
      (Parser.bare calls source).cursor := Cursor.alike_start _ _
  have hresult := (Lockstep.bare (Parser.ofSource calls source).context).program_result
    (p := Parser.ofSource calls source) (q := Parser.bare calls source) rfl rfl hc
  obtain ⟨q, hq, hbare⟩ | ⟨e, -, ⟨name, -, -, hknown, hunknown⟩ | hbare⟩ := hresult
  · exact ⟨q, hq, Except.ok.inj (hbare.symm.trans h)⟩
  · exact absurd hknown hunknown
  · cases hbare.symm.trans h

/-- **Round trip**: the text of a writable source unit is read as it was written, up to
places, whichever functions take arguments without parentheses. -/
theorem shape_of_parse_text (calls : StatementCalls) (p : Program σ) (h : p.Writable) :
    ∃ q, parse calls p.text = .ok q ∧ q.shape = p.shape := by
  have hreads : Reads (Parser.bare calls p.text).context .program
      (Parser.bare calls p.text).cursor.ahead [] p.shape := by
    rw [Parser.bare, Cursor.start, p.significant_ofText_text h]
    exact Program.reads h
  exact parse_of_bare (Parser.program_of_reads hreads)

/-- `unless ($x) { ($x)[1] = f('it\'s') |$y| { } } else { (A) }` -/
def unlessProgram : Program Unit :=
  let body : Block Unit := ⟨(), [.assign () (.access () (.var () "x") [.literal () (.integer "1")])
    (.call () ⟨"f", ()⟩ [.literal () (.string "it's")] (some ⟨(), [⟨"y", ()⟩], ⟨(), []⟩⟩))]⟩
  ⟨⟨(), [.conditional () .unlessTrue (.var () "x") body
    (some ⟨(), [.expr () (.reference () "A")]⟩)]⟩⟩

theorem unlessProgram_writable : unlessProgram.Writable := by
  have hx : (Kind.var "x").Lone := ⟨rfl, by decide +kernel⟩
  have hy : (Kind.var "y").Lone := ⟨rfl, by decide +kernel⟩
  have hone : (Kind.integer "1").Lone := ⟨rfl, by decide +kernel⟩
  have hf : (Kind.name "f").Lone := ⟨rfl, by decide +kernel⟩
  have hA : (Kind.reference "A").Lone := ⟨rfl, by decide +kernel⟩
  have hstring : (Kind.singleQuoted "it's").Lone := trivial
  simp [unlessProgram, Program.Writable, Block.Writable, stmtsWritable, Stmt.Writable,
    Expr.Writable, Expr.isAssignable, exprsWritable, lambdaWritable, Lambda.Writable, elseWritable,
    Literal.kind, hx, hy, hone, hf, hA, hstring]

/-- A source unit with a conditional in it. -/
theorem shape_of_parse_text_unless :
    unlessProgram.Writable ∧
      ∃ q, parse .empty unlessProgram.text = .ok q ∧ q.shape = unlessProgram.shape :=
  ⟨unlessProgram_writable, shape_of_parse_text .empty unlessProgram unlessProgram_writable⟩

end CallGrammar
