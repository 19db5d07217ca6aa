import CallGrammar.Proofs.Walk

/-!
# CallGrammar.Proofs.Walk.Grammar

The steps of the grammar.  Each function gets one lemma; `Phrase.walks` puts them together.
Before that, what is refused where it begins with a comma: the elements of a list, the entries of
a hash, and statements; and where it begins with a parenthesis and a comma, arguments.
-/

namespace CallGrammar

variable {σ τ α : Type}

/-! ## commas that are refused -/

namespace StopsOnComma

theorem exhausted : StopsOnComma (Parse.exhausted : Parse σ α) := fun _ _ _ _ _ _ => .exhausted

/-- A look at the comma, and what is done there. -/
theorem peek {q : Option Kind → Parse σ α} (h : StopsOnComma (q (some (.symbol .comma)))) :
    StopsOnComma (Parse.peek >>= q) := by
  intro context c comma rest hcomma hahead
  rw [Parse.run_peek_bind, Cursor.kind?_eq hahead hcomma]
  exact h context c comma rest hcomma hahead

/-- A comma where an element should begin is refused. -/
theorem strayComma : StopsOnComma (Parse.strayComma : Parse σ α) := by
  intro context c comma rest _ hahead
  rw [Parse.run_strayComma, Cursor.place_cons context.finish hahead]
  exact .stray c

/-- Line breaks before the comma make no difference. -/
theorem skipNewlines {q : Unit → Parse σ α} (h : StopsOnComma (q ())) :
    StopsOnComma (Parse.skipNewlines >>= q) := by
  intro context c comma rest hcomma hahead
  have hskip : c.skipNewlines = c := Cursor.skip_eq_self (Cursor.kind?_eq hahead hcomma) rfl
  rw [Parse.run_skipNewlines_bind, hskip]
  exact h context c comma rest hcomma hahead

theorem skipSeparators {q : Unit → Parse σ α} (h : StopsOnComma (q ())) :
    StopsOnComma (Parse.skipSeparators >>= q) := by
  intro context c comma rest hcomma hahead
  have hskip : c.skipSeparators = c := Cursor.skip_eq_self (Cursor.kind?_eq hahead hcomma) rfl
  rw [Parse.run_skipSeparators_bind, hskip]
  exact h context c comma rest hcomma hahead

variable [Location σ]

/-- A list of elements begins with no comma. -/
theorem elements (construct : Construct) (n : Nat) :
    StopsOnComma (Grammar.elements construct n : Parse σ (List (Expr σ))) := by
  cases n with
  | zero => exact exhausted
  | succ n =>
    unfold Grammar.elements
    exact skipNewlines (peek strayComma)

/-- A hash begins with no comma. -/
theorem entries (n : Nat) : StopsOnComma (Grammar.entries n : Parse σ (List (Entry σ))) := by
  cases n with
  | zero => exact exhausted
  | succ n =>
    unfold Grammar.entries
    exact peek strayComma

/-- A statement begins with no comma. -/
theorem statement (n : Nat) : StopsOnComma (Grammar.statement n : Parse σ (Stmt σ)) := by
  cases n with
  | zero => exact exhausted
  | succ n =>
    unfold Grammar.statement
    exact peek strayComma

/-- A block begins with no comma. -/
theorem statements (n : Nat) : StopsOnComma (Grammar.statements n : Parse σ (List (Stmt σ))) := by
  cases n with
  | zero => exact exhausted
  | succ n =>
    unfold Grammar.statements
    exact skipSeparators (peek ((statement n).bind _))

end StopsOnComma

namespace StopsInCall

theorem exhausted : StopsInCall (Parse.exhausted : Parse σ α) := fun _ _ _ _ _ _ _ _ => .exhausted

theorem peek {q : Option Kind → Parse σ α} (h : StopsInCall (q (some (.symbol .openParen)))) :
    StopsInCall (Parse.peek >>= q) := by
  intro context c paren comma rest hparen hcomma hahead
  rw [Parse.run_peek_bind, Cursor.kind?_eq hahead hparen]
  exact h context c paren comma rest hparen hcomma hahead

variable [Location σ]

/-- A call begins with no comma between its parentheses. -/
theorem arguments (n : Nat) : StopsInCall (Grammar.arguments n : Parse σ (List (Expr σ))) := by
  cases n with
  | zero => exact exhausted
  | succ n =>
    intro context c paren comma rest hparen hcomma hahead
    have hkind : c.kind? = some (.symbol .openParen) := Cursor.kind?_eq hahead hparen
    have hnext : c.next.ahead = comma :: rest := (Cursor.passes_cons hahead).2
    rw [Grammar.arguments_succ, Parse.run_bind, Parse.symbol, Parse.run_expect_of_eq hkind]
    exact ((StopsOnComma.elements .argumentList n).bind _) context c.next comma rest hcomma hnext

/-- The arguments and the lambda of a call. -/
theorem callOf (callee : Ident σ) (n : Nat) :
    StopsInCall (Grammar.callOf callee n : Parse σ (Expr σ)) := by
  cases n with
  | zero => exact exhausted
  | succ n =>
    unfold Grammar.callOf
    exact (arguments n).bind _

theorem optionalArguments (n : Nat) :
    StopsInCall (Grammar.optionalArguments n : Parse σ (List (Expr σ))) := by
  cases n with
  | zero => exact exhausted
  | succ n =>
    unfold Grammar.optionalArguments
    exact peek (arguments n)

end StopsInCall

/-! ## tokens of known kinds -/

theorem Kind.isOrdinary_of_isInert {k : Kind} (h : k.isInert = true) : k.isOrdinary = true := by
  cases k with
  | symbol s => cases s <;> first | rfl | cases h
  | name | invalid => cases h
  | _ => rfl

theorem Kind.isOrdinary_of_opensCondition {k : Kind} {sense : Sense}
    (h : opensCondition sense k = true) : k.isOrdinary = true := by
  unfold opensCondition at h
  split at h <;> first | rfl | cases h

namespace Walk

variable [Location σ] [Location τ] {f : σ → τ} {n m depth : Nat} {known : Option Kind}

/-! ## lists of parameters -/

theorem parameters (opener : σ) :
    Walk f n m depth .token (List.map (Ident.map f)) known depth .bars
      (Grammar.parameters opener (n + 1)) (Grammar.parameters (f opener) (m + 1)) := by
  unfold Grammar.parameters
  apply skipNewlines rfl
  apply peek rfl
  · intro k
    split
    · exact pure [] rfl
    · next name =>
      apply place
      intro here
      apply parameter rfl
      apply skipNewlines rfl
      apply peek rfl
      · intro k
        split
        · apply parameter rfl
          apply phrase (.parameters opener) rfl
          intro rest
          exact pure (Ident.mk name here :: rest) rfl
        · exact pure [Ident.mk name here] rfl
        · exact fail (.unterminated .lambdaParameters opener) rfl
        · exact unexpected .commaOrPipe rfl
      · exact fun _ => rfl
      · exact fun _ => unexpected .commaOrPipe rfl
    · exact fail (.unterminated .lambdaParameters opener) rfl
    · exact unexpected .parameter rfl
  · exact fun _ => rfl
  · exact fun _ => unexpected .parameter rfl

/-! ## expressions -/

/-- An operand, then operators. -/
theorem expression (lowest : Nat) :
    Walk f n m depth .token (Expr.map f) known depth .token (Grammar.expression lowest (n + 1))
      (Grammar.expression lowest (m + 1)) := by
  unfold Grammar.expression
  apply phrase .operand rfl
  intro left
  exact last (.operators lowest left) rfl rfl

/-- An operator of the level and its right side, then others. -/
theorem operators (hf : ∀ a b, f (Location.merge a b) = Location.merge (f a) (f b)) (lowest : Nat)
    (left : Expr σ) :
    Walk f n m depth .token (Expr.map f) known depth .token
      (Grammar.operators lowest left (n + 1))
      (Grammar.operators lowest (left.map f) (m + 1)) := by
  unfold Grammar.operators
  apply peek rfl
  · intro k
    split
    · next op hop =>
      obtain ⟨kind, rfl, hkind⟩ := Option.bind_eq_some_iff.1 hop
      split
      · exact pure left rfl
      · have hinner := Kind.isInner_of_isFlat (Kind.isFlat_of_isInert (BinaryOp.inert hkind))
        apply ordinary (Kind.isOrdinary_of_isInert (BinaryOp.inert hkind))
        apply skipNewlines rfl
        apply phrase (.expression (op.level + 1)) rfl
        intro right
        simp only [Phrase.mapValue, Expr.span_map, ← hf]
        exact last
          (.operators lowest (.binary (Location.merge left.span right.span) op left right)) rfl rfl
    · exact pure left rfl
  · exact fun _ => rfl
  · exact fun _ => pure left rfl

/-- A sign and an operand, or a primary expression with its suffixes. -/
theorem operand (hf : ∀ a b, f (Location.merge a b) = Location.merge (f a) (f b)) :
    Walk f n m depth .token (Expr.map f) known depth .token (Grammar.operand (n + 1))
      (Grammar.operand (m + 1)) := by
  have hprimary (known : Option Kind) : Walk f n m depth .token (Expr.map f) known depth .token
      (Grammar.primary n >>= fun inner => Grammar.suffixes inner n)
      (Grammar.primary m >>= fun inner => Grammar.suffixes inner m) :=
    phrase .primary rfl fun inner => last (.suffixes inner) rfl rfl
  unfold Grammar.operand
  apply place
  intro here
  apply peek rfl
  · intro k
    split
    · next op hop =>
      obtain ⟨kind, rfl, hkind⟩ := Option.bind_eq_some_iff.1 hop
      apply ordinary (Kind.isOrdinary_of_isInert (UnaryOp.inert hkind))
      apply phrase .operand rfl
      intro inner
      simp only [Phrase.mapValue, Expr.span_map, ← hf]
      exact pure (Expr.unary (Location.merge here inner.span) op inner) rfl
    · exact hprimary k
  · exact fun _ => rfl
  · exact fun _ => hprimary none

/-- A method or an access, then others. -/
theorem suffixes (hf : ∀ a b, f (Location.merge a b) = Location.merge (f a) (f b))
    (target : Expr σ) :
    Walk f n m depth .token (Expr.map f) known depth .token (Grammar.suffixes target (n + 1))
      (Grammar.suffixes (target.map f) (m + 1)) := by
  unfold Grammar.suffixes
  apply peek rfl
  · intro k
    split
    · apply ordinary rfl
      apply name
      · exact fun text callee => ((StopsInCall.optionalArguments n).bind _).rejects text
      intro callee
      apply phrase .optionalArguments rfl
      intro args
      apply phrase .optionalLambda rfl
      intro lambda
      rw [Expr.span_map]
      apply since
      intro whole
      exact last (.suffixes (.method whole target callee args lambda)) rfl rfl
    · apply touching fun _ => rfl
      intro touches touches' htouches
      rw [htouches rfl]
      split
      · apply place
        intro opener
        apply Walk.opener rfl (((StopsOnComma.elements .access n).bind _).rejects _)
        apply phrase (.elements .access) rfl
        intro keys
        apply close rfl
        intro closer
        have hempty : (mapExprs f keys).isEmpty = keys.isEmpty := by
          rw [mapExprs_eq_map, List.isEmpty_map]
        simp only [Phrase.mapValue, hempty, Expr.span_map, ← hf]
        split
        · exact fail (.emptyAccess closer) rfl
        · exact last (.suffixes (.access (Location.merge target.span closer) target keys)) rfl rfl
      · exact pure target rfl
    · exact pure target rfl
  · exact fun _ => rfl
  · exact fun _ => pure target rfl

/-- One token, a name, or what stands between brackets. -/
theorem primary (hf : ∀ a b, f (Location.merge a b) = Location.merge (f a) (f b)) :
    Walk f n m depth .token (Expr.map f) known depth .token (Grammar.primary (n + 1))
      (Grammar.primary (m + 1)) := by
  unfold Grammar.primary
  apply place
  intro here
  apply peek rfl
  · intro k
    split
    · next name =>
      exact ordinary rfl (pure (Expr.var here name) rfl)
    · next name =>
      exact ordinary rfl (pure (Expr.reference here name) rfl)
    · exact last .callOrWord rfl rfl
    · apply opener rfl (((StopsOnComma.elements .array n).bind _).rejects _)
      apply phrase (.elements .array) rfl
      intro items
      apply close rfl
      intro closer
      rw [← hf]
      exact pure (Expr.array (Location.merge here closer) items) rfl
    · apply opener rfl ((StopsOnComma.skipNewlines ((StopsOnComma.entries n).bind _)).rejects _)
      apply skipNewlines rfl
      apply phrase .entries rfl
      intro found
      apply close rfl
      intro closer
      rw [← hf]
      exact pure (Expr.hash (Location.merge here closer) found) rfl
    · apply opener rfl (rejects_of_isMarker rfl _)
      apply skipNewlines rfl
      apply phrase (.expression 0) rfl
      intro inner
      apply skipNewlines rfl
      apply peekInside rfl
      intro k
      split
      · exact strayComma rfl
      · apply close rfl
        intro closer
        simp only [Phrase.mapValue, ← hf, ← Expr.map_withSpan]
        exact pure (inner.withSpan (Location.merge here closer)) rfl
    · split
      · next value hvalue =>
        obtain ⟨kind, rfl, hkind⟩ := Option.bind_eq_some_iff.1 hvalue
        exact ordinary (Kind.isOrdinary_of_isInert (Literal.inert hkind))
          (pure (Expr.literal here value) rfl)
      · exact unexpected .expression rfl
  · exact fun _ => rfl
  · exact fun _ => unexpected .expression rfl

/-! ## lists -/

/-- An element and its comma, then others. -/
theorem elements (construct : Construct) :
    Walk f n m (depth + 1) .token (mapExprs f) known (depth + 1) .token
      (Grammar.elements construct (n + 1)) (Grammar.elements construct (m + 1)) := by
  unfold Grammar.elements
  apply skipNewlines rfl
  apply peekInside rfl
  intro k
  split
  · exact pure [] rfl
  · exact strayComma rfl
  · split
    · exact pure [] rfl
    · apply phrase (.expression 0) rfl
      intro first
      apply skipNewlines rfl
      apply peekInside rfl
      intro k
      split
      · apply advance rfl rfl (((StopsOnComma.elements construct n).bind _).rejects _)
        apply phrase (.elements construct) rfl
        intro rest
        exact pure (first :: rest) rfl
      · exact pure [first] rfl

/-- A key, the arrow and a value, then others. -/
theorem entries :
    Walk f n m (depth + 1) .token (mapEntries f) known (depth + 1) .token
      (Grammar.entries (n + 1)) (Grammar.entries (m + 1)) := by
  unfold Grammar.entries
  apply peekInside rfl
  intro k
  split
  · exact pure [] rfl
  · exact pure [] rfl
  · exact strayComma rfl
  · apply phrase (.expression 0) rfl
    intro key
    apply skipNewlines rfl
    apply symbol rfl
    intro _
    apply skipNewlines rfl
    apply phrase (.expression 0) rfl
    intro value
    apply skipNewlines rfl
    apply peekInside rfl
    intro k
    split
    · apply advance rfl rfl
        ((StopsOnComma.skipNewlines ((StopsOnComma.entries n).bind _)).rejects _)
      apply skipNewlines rfl
      apply phrase .entries rfl
      intro rest
      exact pure (Entry.mk key value :: rest) rfl
    · exact pure [Entry.mk key value] rfl

/-- The list between the parentheses of a call. -/
theorem arguments :
    Walk f n m depth .token (mapExprs f) known depth .token (Grammar.arguments (n + 1))
      (Grammar.arguments (m + 1)) := by
  rw [Grammar.arguments_succ, Grammar.arguments_succ]
  apply symbolOpener rfl fun _ => rejects_of_isMarker rfl _
  intro opener
  apply phrase (.elements .argumentList) rfl
  intro args
  apply closeAs rfl
  intro _
  exact pure args rfl

theorem optionalArguments :
    Walk f n m depth .token (mapExprs f) known depth .token (Grammar.optionalArguments (n + 1))
      (Grammar.optionalArguments (m + 1)) := by
  unfold Grammar.optionalArguments
  apply peek rfl
  · intro k
    split
    · exact last .arguments rfl rfl
    · exact pure [] rfl
  · exact fun _ => rfl
  · exact fun _ => pure [] rfl

/-- An argument, then others behind commas. -/
theorem bareArguments :
    Walk f n m (depth + 1) .token (mapExprs f) known (depth + 1) .token
      (Grammar.bareArguments (n + 1)) (Grammar.bareArguments (m + 1)) := by
  unfold Grammar.bareArguments
  apply phrase (.expression 0) rfl
  intro first
  apply phrase .moreBareArguments rfl
  intro rest
  exact pure (first :: rest) rfl

theorem moreBareArguments :
    Walk f n m (depth + 1) .token (mapExprs f) known (depth + 1) .token
      (Grammar.moreBareArguments (n + 1)) (Grammar.moreBareArguments (m + 1)) := by
  unfold Grammar.moreBareArguments
  apply peekInside rfl
  intro k
  split
  · apply place
    intro comma
    apply advance rfl rfl
      ((StopsOnComma.skipNewlines (StopsOnComma.peek StopsOnComma.strayComma)).rejects _)
    apply skipNewlines rfl
    apply peekInside rfl
    intro k
    split
    · exact strayComma rfl
    · exact fail (.strayComma comma) rfl
    · exact fail (.strayComma comma) rfl
    · exact fail (.strayComma comma) rfl
    · apply phrase (.expression 0) rfl
      intro first
      apply phrase .moreBareArguments rfl
      intro rest
      exact pure (first :: rest) rfl
  · exact pure [] rfl

/-! ## calls -/

theorem callOrWord :
    Walk f n m depth .token (Expr.map f) known depth .token (Grammar.callOrWord (n + 1))
      (Grammar.callOrWord (m + 1)) := by
  unfold Grammar.callOrWord
  apply name
  · exact fun text callee => (StopsInCall.peek (.callOf callee n)).rejects text
  intro callee
  apply peek rfl
  · intro k
    split
    · exact last (.callOf callee) rfl rfl
    · exact pure (Expr.word callee.span callee.name) rfl
  · exact fun _ => rfl
  · exact fun _ => pure (Expr.word callee.span callee.name) rfl

theorem callOf (callee : Ident σ) :
    Walk f n m depth .token (Expr.map f) known depth .token (Grammar.callOf callee (n + 1))
      (Grammar.callOf (callee.map f) (m + 1)) := by
  unfold Grammar.callOf
  apply phrase .arguments rfl
  intro args
  apply phrase .optionalLambda rfl
  intro lambda
  apply since
  intro whole
  exact pure (Expr.call whole callee args lambda) rfl

theorem optionalLambda :
    Walk f n m depth .token (mapLambda f) known depth .token (Grammar.optionalLambda (n + 1))
      (Grammar.optionalLambda (m + 1)) := by
  unfold Grammar.optionalLambda
  apply peek rfl
  · intro k
    split
    · exact phrase .lambda rfl fun found => pure (some found) rfl
    · exact phrase .lambda rfl fun found => pure (some found) rfl
    · exact pure none rfl
  · exact fun _ => rfl
  · exact fun _ => pure none rfl

/-- The parameters between bars, and the body. -/
theorem lambda :
    Walk f n m depth .token (Lambda.map f) known depth .token (Grammar.lambda (n + 1))
      (Grammar.lambda (m + 1)) := by
  unfold Grammar.lambda
  apply place
  intro here
  apply peek rfl
  · intro k
    split
    · apply ordinary rfl
      exact last (.lambdaBody here []) rfl rfl
    · apply bar
      apply phrase (.parameters here) rfl
      intro params
      apply symbol rfl
      intro _
      exact last (.lambdaBody here params) rfl rfl
    · exact unexpected .lambda rfl
  · exact fun _ => rfl
  · exact fun _ => unexpected .lambda rfl

theorem lambdaBody (opener : σ) (params : List (Ident σ)) :
    Walk f n m depth .token (Lambda.map f) known depth .token
      (Grammar.lambdaBody opener params (n + 1))
      (Grammar.lambdaBody (f opener) (params.map (Ident.map f)) (m + 1)) := by
  unfold Grammar.lambdaBody
  apply skipNewlines rfl
  apply phrase (.block .lambdaBody) ⟨rfl, rfl⟩
  intro body
  apply since
  intro whole
  exact pure (Lambda.mk whole params body) rfl

/-! ## statements -/

/-- The statements between braces. -/
theorem block (hf : ∀ a b, f (Location.merge a b) = Location.merge (f a) (f b))
    {construct : Construct} (hbrace : construct.closer = .closeBrace) :
    Walk f n m depth .token (Block.map f) known depth .token (Grammar.block construct (n + 1))
      (Grammar.block construct (m + 1)) := by
  unfold Grammar.block
  apply symbolOpener rfl fun _ => ((StopsOnComma.statements n).bind _).rejects _
  intro opener
  apply phrase .statements trivial
  intro stmts
  apply close (by rw [hbrace]; rfl)
  intro closer
  rw [← hf]
  exact pure (Block.mk (Location.merge opener closer) stmts) rfl

/-- Separators and a statement, then others. -/
theorem statements {view : View} :
    Walk f n m (depth + 1) .token (mapStmts f) known (depth + 1) view
      (Grammar.statements (n + 1)) (Grammar.statements (m + 1)) := by
  unfold Grammar.statements
  apply skipSeparators
  apply peekInside rfl
  intro k
  split
  · exact pure [] rfl
  · exact pure [] rfl
  · have hrest (first : Stmt σ) (known : Option Kind) (view : View) :
        Walk f n m (depth + 1) .token (mapStmts f) known (depth + 1) view
          (Grammar.statements n >>= fun rest => Pure.pure (first :: rest))
          (Grammar.statements m >>= fun rest => Pure.pure (first.map f :: rest)) :=
      phrase .statements trivial fun rest => pure (first :: rest) rfl
    apply phrase .statement rfl
    intro first
    apply peekAgain
    · intro k _
      split
      · exact strayComma rfl
      · exact hrest first _ _
    · intro k hk
      split
      · cases hk _ rfl
      · exact hrest first _ _

/-- A conditional, a callable, or an expression that may be assigned to. -/
theorem statement :
    Walk f n m (depth + 1) .line (Stmt.map f) known (depth + 1) .token (Grammar.statement (n + 1))
      (Grammar.statement (m + 1)) := by
  unfold Grammar.statement
  apply peekInside rfl
  intro k
  split
  · exact last (.conditional .ifTrue) ⟨rfl, _, rfl, rfl⟩ rfl
  · exact last (.conditional .unlessTrue) ⟨rfl, _, rfl, rfl⟩ rfl
  · exact strayComma rfl
  · apply phrase .callable rfl
    intro found
    cases found with
    | statement stmt => exact pure stmt rfl
    | value expr => exact last (.valueStatement expr) rfl rfl
  · apply phrase (.expression 0) rfl
    intro expr
    exact last (.valueStatement expr) rfl rfl

/-- An assignment, if its sign follows. -/
theorem valueStatement (hf : ∀ a b, f (Location.merge a b) = Location.merge (f a) (f b))
    (expr : Expr σ) :
    Walk f n m (depth + 1) .token (Stmt.map f) known (depth + 1) .token
      (Grammar.valueStatement expr (n + 1)) (Grammar.valueStatement (expr.map f) (m + 1)) := by
  unfold Grammar.valueStatement
  apply peekInside rfl
  intro k
  rw [Expr.isAssignable_map, Expr.span_map]
  split
  · split
    · apply ordinary rfl
      apply skipNewlines rfl
      apply phrase (.expression 0) rfl
      intro value
      simp only [Phrase.mapValue, Expr.span_map, ← hf]
      exact pure (Stmt.assign (Location.merge expr.span value.span) expr value) rfl
    · exact fail (.unassignable expr.span) rfl
  · exact pure (Stmt.expr expr.span expr) rfl

/-- The condition, a branch, and what is done otherwise. -/
theorem conditional {sense : Sense} {k : Kind} (hk : opensCondition sense k = true) :
    Walk f n m (depth + 1) .line (Stmt.map f) (some k) (depth + 1) .token
      (Grammar.conditional sense (n + 1)) (Grammar.conditional sense (m + 1)) := by
  unfold Grammar.conditional
  apply place
  intro here
  apply ordinary (Kind.isOrdinary_of_opensCondition hk)
  apply phrase (.expression 0) rfl
  intro condition
  apply phrase (.block (Grammar.branchConstruct sense))
    ⟨rfl, Grammar.closer_branchConstruct sense⟩
  intro thenBranch
  apply phrase (.alternative sense) rfl
  intro elseBranch
  apply since
  intro whole
  exact pure (Stmt.conditional whole sense condition thenBranch elseBranch) rfl

/-- An `elsif` or an `else` behind line breaks. -/
theorem alternative (sense : Sense) :
    Walk f n m (depth + 1) .line (mapBlock f) known (depth + 1) .token
      (Grammar.alternative sense (n + 1)) (Grammar.alternative sense (m + 1)) := by
  unfold Grammar.alternative
  apply peekPastNewlines
  intro k
  split
  · apply skipLine
    apply phrase (.conditional .ifTrue) ⟨rfl, _, rfl, rfl⟩
    intro nested
    simp only [Phrase.mapValue, Stmt.span_map]
    exact pure (some (Block.mk nested.span [nested])) rfl
  · apply skipLine
    apply ordinary rfl
    apply phrase (.block .elseBody) ⟨rfl, rfl⟩
    intro body
    exact pure (some body) rfl
  · exact pure none rfl

theorem continued (first : Expr σ) :
    Walk f n m (depth + 1) .token (Expr.map f) known (depth + 1) .token
      (Grammar.continued first (n + 1)) (Grammar.continued (first.map f) (m + 1)) := by
  unfold Grammar.continued
  apply phrase (.suffixes first) rfl
  intro left
  exact last (.operators 0 left) rfl rfl

/-- A call as a statement, or the expression that begins with the name. -/
theorem callable :
    Walk f n m (depth + 1) .token (Grammar.Callable.map f) known (depth + 1) .token
      (Grammar.callable (n + 1)) (Grammar.callable (m + 1)) := by
  unfold Grammar.callable
  apply name
  · exact fun text callee => (StopsInCall.peek ((StopsInCall.callOf callee n).bind _)).rejects text
  intro callee
  apply peekInside rfl
  intro k
  split
  · apply phrase (.callOf callee) rfl
    intro call
    apply phrase (.continued call) rfl
    intro whole
    apply peekInside rfl
    intro k
    cases whole with
    | call span callee args lambda =>
      simp only [Phrase.mapValue, Expr.map]
      split
      · exact pure (Grammar.Callable.value (.call span callee args lambda)) rfl
      · next heq _ =>
        cases heq
        exact pure (Grammar.Callable.statement (.invoke span callee args lambda)) rfl
      · next heq _ => exact absurd rfl (heq span callee args lambda)
    | _ => exact pure (Grammar.Callable.value _) rfl
  · apply touching (absurd · depth.succ_ne_zero)
    intro touches touches' htouches
    have hbegins : Grammar.beginsArgument k touches' = Grammar.beginsArgument k touches := by
      unfold Grammar.beginsArgument
      split <;> simp_all
    rw [hbegins]
    split
    · apply phrase .bareArguments rfl
      intro args
      apply since
      intro whole
      have hlength : (mapExprs f args).length = args.length := by
        rw [mapExprs_eq_map, List.length_map]
      simp only [Phrase.mapValue, hlength]
      exact invoke callee.name whole _ (Grammar.Callable.statement (.invoke whole callee args none))
    · apply phrase (.continued (.word callee.span callee.name)) rfl
      intro whole
      exact pure (Grammar.Callable.value whole) rfl

/-- All statements, up to the end. -/
theorem program :
    Walk f n m (depth + 1) .token (Program.map f) known (depth + 1) .token
      (Grammar.program (n + 1)) (Grammar.program (m + 1)) := by
  unfold Grammar.program
  apply place
  intro here
  apply phrase .statements trivial
  intro stmts
  apply peekInside rfl
  intro k
  split
  · have hempty : (mapStmts f stmts).isEmpty = stmts.isEmpty := by
      cases stmts <;> rfl
    simp only [Phrase.mapValue, hempty]
    split
    · exact pure (Program.mk ⟨here, []⟩) rfl
    · apply since
      intro whole
      exact pure (Program.mk ⟨whole, stmts⟩) rfl
  · exact unexpected .statement rfl

end Walk

/-! ## all phrases -/

/-- **Walk**: wherever a phrase may stand, it takes the same steps at other places. -/
theorem Phrase.walks [Location σ] [Location τ] {f : σ → τ}
    (hf : ∀ a b, f (Location.merge a b) = Location.merge (f a) (f b)) (n m : Nat) (p : Phrase σ)
    (depth : Nat) {known : Option Kind} {view : View} (henters : p.Enters view known) :
    Walk f n m (depth + p.groups) p.sight (p.mapValue f) known (depth + p.groups) view
      (p.parse (n + 1)) ((p.map f).parse (m + 1)) := by
  cases p with
  | parameters opener =>
    obtain rfl := henters
    exact Walk.parameters opener
  | statements => exact Walk.statements
  | block construct =>
    obtain ⟨rfl, hbrace⟩ := henters
    exact Walk.block hf hbrace
  | conditional sense =>
    obtain ⟨rfl, k, rfl, hk⟩ := henters
    exact Walk.conditional hk
  | expression lowest => obtain rfl := henters; exact Walk.expression lowest
  | operators lowest left => obtain rfl := henters; exact Walk.operators hf lowest left
  | operand => obtain rfl := henters; exact Walk.operand hf
  | suffixes target => obtain rfl := henters; exact Walk.suffixes hf target
  | primary => obtain rfl := henters; exact Walk.primary hf
  | elements construct => obtain rfl := henters; exact Walk.elements construct
  | entries => obtain rfl := henters; exact Walk.entries
  | arguments => obtain rfl := henters; exact Walk.arguments
  | optionalArguments => obtain rfl := henters; exact Walk.optionalArguments
  | bareArguments => obtain rfl := henters; exact Walk.bareArguments
  | moreBareArguments => obtain rfl := henters; exact Walk.moreBareArguments
  | callOrWord => obtain rfl := henters; exact Walk.callOrWord
  | callOf callee => obtain rfl := henters; exact Walk.callOf callee
  | optionalLambda => obtain rfl := henters; exact Walk.optionalLambda
  | lambda => obtain rfl := henters; exact Walk.lambda
  | lambdaBody opener params => obtain rfl := henters; exact Walk.lambdaBody opener params
  | statement => obtain rfl := henters; exact Walk.statement
  | valueStatement expr => obtain rfl := henters; exact Walk.valueStatement hf expr
  | alternative sense => obtain rfl := henters; exact Walk.alternative sense
  | callable => obtain rfl := henters; exact Walk.callable
  | continued first => obtain rfl := henters; exact Walk.continued first
  | program => obtain rfl := henters; exact Walk.program

end CallGrammar
