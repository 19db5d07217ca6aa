import CallGrammar.Proofs.Subtree

/-!
# CallGrammar.Proofs.Subtree.Planted

All parts of a tree stand on their tokens.  The parts of one phrase are found in the
phrases it consists of; only what grows to the left is not.  In `$a.b + 1` the operand
`$a.b` is no phrase of its own where suffixes go on, nor is a sum where operators do.
For these, `Stem` and `Left` say that the tokens so far, with what goes on, derive an
expression; the part itself is the case in which nothing goes on.
-/

namespace CallGrammar

variable {context : Context Span}

/-! ## expressions that go on -/

/-- Before the tokens `rest`, the tokens `ts` are what an expression begins with, read so
far as `first`, and suffixes and operators go on with it. -/
def Stem (context : Context Span) (ts rest : List (Token Span)) (first : Expr Span) : Prop :=
  ∀ ws xs v, rest = ws ++ xs → Reads context (.continued first) ws [] v →
    Reads context (.expression 0) (ts ++ ws) [] v

/-- The same where only operators go on. -/
def Left (context : Context Span) (ts rest : List (Token Span)) (left : Expr Span) : Prop :=
  ∀ ws xs v, rest = ws ++ xs → Reads context (.operators 0 left) ws [] v →
    Reads context (.expression 0) (ts ++ ws) [] v

section

variable {ts us rest : List (Token Span)} {e next : Expr Span}

/-- A primary expression may have suffixes behind it. -/
theorem Stem.of_primary (h : Reads context .primary ts rest e) : Stem context ts rest e := by
  rintro ws xs v rfl hrest
  cases hrest with
  | @continued _ _ _ us vs _ hsuffixes hoperators =>
    rw [← List.append_assoc]
    refine .expression (.operand ?_ hsuffixes) hoperators
    exact .truncate xs (by simpa using h) trivial

/-- An operand may have operators behind it. -/
theorem Left.of_operand (h : Reads context .operand ts rest e) : Left context ts rest e := by
  rintro ws xs v rfl hoperators
  refine .expression ?_ hoperators
  exact .truncate xs (by simpa using h) trivial

/-- Suffixes go on with a stem, and then operators do. -/
theorem Stem.left (h : Stem context ts (us ++ rest) e)
    (hsuffixes : Reads context (.suffixes e) us rest next) : Left context (ts ++ us) rest next := by
  rintro ws xs v rfl hoperators
  have hfirst : Reads context (.suffixes e) us (ws ++ []) next :=
    .truncate xs (by simpa using hsuffixes) trivial
  rw [List.append_assoc]
  exact h (us ++ ws) xs v (by rw [List.append_assoc]) (.continued hfirst hoperators)

/-- With nothing behind it, what suffixes may follow is a whole expression. -/
theorem Stem.expression (h : Stem context ts rest e) : Reads context (.expression 0) ts [] e := by
  have hts := h [] rest e rfl (.continued_end e)
  rwa [List.append_nil] at hts

/-- With nothing behind it, what operators may follow is a whole expression. -/
theorem Left.expression (h : Left context ts rest e) : Reads context (.expression 0) ts [] e := by
  have hts := h [] rest e rfl (.operators_nil 0 e)
  rwa [List.append_nil] at hts

/-- Another suffix makes a longer stem. -/
theorem Stem.suffix (h : Stem context ts (us ++ rest) e)
    (hsuffix : ∀ ws xs ys v, rest = ws ++ (xs ++ ys) → Reads context (.suffixes next) ws xs v →
      Reads context (.suffixes e) (us ++ ws) xs v) : Stem context (ts ++ us) rest next := by
  rintro ws xs v rfl hrest
  cases hrest with
  | @continued _ _ _ vs vs' _ hsuffixes hoperators =>
    have hfirst := hsuffix vs (vs' ++ []) xs _ (by simp) hsuffixes
    have hcontinued := Reads.continued hfirst hoperators
    have hts := h (us ++ vs ++ vs') xs v (by simp) hcontinued
    simpa using hts

/-- A method call is read with what it is called on. -/
theorem Stem.method {dot t : Token Span} {name : String} {args : List (Expr Span)}
    {lambda : Option (Lambda Span)} {us vs : List (Token Span)}
    (h : Stem context ts (dot :: t :: (us ++ (vs ++ rest))) e)
    (hdot : dot.kind = .symbol .dot) (ht : t.kind = .name name)
    (hargs : Reads context .optionalArguments us (vs ++ rest) args)
    (hlambda : Reads context .optionalLambda vs rest lambda) :
    Stem context (ts ++ dot :: t :: (us ++ vs)) rest
      (.method (through e.span (dot :: t :: (us ++ vs))) e ⟨name, t.span⟩ args lambda) := by
  refine Stem.suffix (by simpa using h) ?_
  rintro ws xs ys v rfl hsuffixes
  have hargs : Reads context .optionalArguments us (vs ++ (ws ++ xs)) args :=
    .truncate ys (by simpa using hargs) trivial
  have hlambda : Reads context .optionalLambda vs (ws ++ xs) lambda :=
    .truncate ys (by simpa using hlambda) trivial
  have hmethod := Reads.method hdot ht hargs hlambda hsuffixes
  simpa using hmethod

/-- An access is read with what it looks into. -/
theorem Stem.access {opener closer : Token Span} {keys : List (Expr Span)}
    (h : Stem context ts (opener :: (us ++ closer :: rest)) e)
    (hopener : opener.kind = .symbol .openBracket) (htouching : opener.touching = true)
    (hkeys : Reads context (.elements .access) us (closer :: rest) keys)
    (hcloser : closer.kind = .symbol .closeBracket) (hne : keys ≠ []) :
    Stem context (ts ++ opener :: (us ++ [closer])) rest
      (.access (Location.merge e.span closer.span) e keys) := by
  refine Stem.suffix (by simpa using h) ?_
  rintro ws xs ys v rfl hsuffixes
  have hkeys : Reads context (.elements .access) us (closer :: (ws ++ xs)) keys :=
    .truncate ys (by simpa using hkeys) (.inr rfl)
  have haccess := Reads.access hopener htouching hkeys hcloser hne hsuffixes
  simpa using haccess

/-- Another operator with its right operand makes a longer left operand. -/
theorem Left.operator {right : Expr Span} {op : BinaryOp} {t : Token Span}
    {nl : List (Token Span)} (h : Left context ts (t :: (nl ++ (us ++ rest))) e)
    (ht : BinaryOp.ofKind? t.kind = some op) (hnl : Newlines nl)
    (hright : Reads context (.expression (op.level + 1)) us rest right) :
    Left context (ts ++ t :: (nl ++ us)) rest
      (.binary (Location.merge e.span right.span) op e right) := by
  rintro ws xs v rfl hoperators
  have hright : Reads context (.expression (op.level + 1)) us (ws ++ []) right :=
    .truncate xs (by simpa using hright) trivial
  have hgoes := Reads.operator ht (Nat.zero_le op.level) hnl hright hoperators
  have hts := h _ xs v (by simp) hgoes
  simpa using hts

end

/-! ## every phrase -/

/-- The parts of the value stand on the tokens of the phrase; what goes on after a value
makes one that stands on the tokens of both. -/
def Phrase.Plants (context : Context Span) :
    (p : Phrase Span) → (ts after : List (Token Span)) → p.Value → Prop
  | parameters _, ts, _, v => Laid context ts (v.map .ident)
  | expression _, ts, _, v | operand, ts, _, v | primary, ts, _, v | callOrWord, ts, _, v =>
    Planted context ts (.expr v)
  | operators _ left, ts, after, v => ∀ us, Sorted (us ++ ts) →
    Left context us (ts ++ after) left → Planted context us (.expr left) →
    Planted context (us ++ ts) (.expr v)
  | suffixes first, ts, after, v | continued first, ts, after, v => ∀ us, Sorted (us ++ ts) →
    Stem context us (ts ++ after) first → Planted context us (.expr first) →
    Planted context (us ++ ts) (.expr v)
  | callOf callee, ts, _, v => ∀ t, t.kind = .name callee.name → t.span = callee.span →
    Sorted (t :: ts) → Planted context (t :: ts) (.expr v)
  | elements _, ts, _, v | arguments, ts, _, v | optionalArguments, ts, _, v
  | bareArguments, ts, _, v | moreBareArguments, ts, _, v => Laid context ts (v.map .expr)
  | entries, ts, _, v => Laid context ts (v.flatMap Entry.children)
  | optionalLambda, ts, _, v => Laid context ts (v.toList.map .lambda)
  | lambda, ts, _, v => Planted context ts (.lambda v)
  | lambdaBody opener params, ts, _, v => v.params = params ∧ ts ≠ [] ∧
    v.span = through opener ts ∧ Laid context ts [.block v.body]
  | block _, ts, _, v => Planted context ts (.block v)
  | statements, ts, _, v => Laid context ts (v.map .stmt)
  | statement, ts, _, v | conditional _, ts, _, v => Planted context ts (.stmt v)
  | valueStatement first, ts, _, v => ∀ us, Sorted (us ++ ts) →
    Reads context .statement (us ++ ts) [] v → Planted context us (.expr first) →
    Planted context (us ++ ts) (.stmt v)
  | alternative _, ts, _, v => Laid context ts (v.toList.map .block)
  | callable, ts, _, .statement stmt => Planted context ts (.stmt stmt)
  | callable, ts, _, .value expr => Planted context ts (.expr expr)
  | program, ts, _, v => Laid context ts (v.body.stmts.map .stmt)

/-- The words that open a condition begin a statement, or come after another conditional. -/
theorem opensCondition_cases {sense : Sense} {k : Kind} (h : opensCondition sense k = true) :
    k = .keyword .elsifWord ∨ k = .keyword .ifWord ∧ sense = .ifTrue ∨
      k = .keyword .unlessWord ∧ sense = .unlessTrue := by
  unfold opensCondition at h
  split at h
  · exact .inr (.inl ⟨rfl, rfl⟩)
  · exact .inl rfl
  · exact .inr (.inr ⟨rfl, rfl⟩)
  · cases h

/-- The last of some tokens is the last of those behind. -/
theorem through_append {σ : Type} [Location σ] (first : σ) {ts us : List (Token σ)}
    (hne : us ≠ []) : through first (ts ++ us) = through first us := by
  rw [through, through, List.getLast?_append, List.getLast?_eq_some_getLast hne, Option.some_or]

namespace Phrase.Plants

variable {t opener closer comma arrow : Token Span} {name : String}
  {first left value call whole : Expr Span} {args items keys : List (Expr Span)}
  {nl nl' nl₁ nl₂ nl₃ nl₄ ts us vs after : List (Token Span)}

/-! ### rules of expressions -/

/-- A primary expression whose parts are laid out. -/
theorem primary (hs : Sorted ts) (h : Reads context .primary ts after value)
    (hlaid : Laid context ts value.children) : Plants context .primary ts after value :=
  .of_expression hs h.expression_of_primary hlaid

/-- The operand is the one part of a signed expression. -/
theorem sign {op : UnaryOp} (hs : Sorted (t :: ts)) (ht : UnaryOp.ofKind? t.kind = some op)
    (hinner : Reads context .operand ts after value) (ih : Plants context .operand ts after value) :
    Plants context .operand (t :: ts) after
      (.unary (Location.merge t.span value.span) op value) := by
  refine .of_expression hs (Reads.sign ht hinner).expression_of_operand ?_
  exact (Laid.single ih).front [t]

/-- The left operand and the right one make the left operand of what follows. -/
theorem operator {floor : Nat} {right : Expr Span} {op : BinaryOp}
    (ht : BinaryOp.ofKind? t.kind = some op) (hnl : Newlines nl)
    (hright : Reads context (.expression (op.level + 1)) ts (us ++ after) right)
    (ihright : Plants context (.expression (op.level + 1)) ts (us ++ after) right)
    (ihrest : Plants context
      (.operators floor (.binary (Location.merge left.span right.span) op left right))
      us after value) :
    Plants context (.operators floor left) (t :: (nl ++ (ts ++ us))) after value := by
  intro ws hsorted hleft hplanted
  have hws : ws ++ t :: (nl ++ (ts ++ us)) = (ws ++ t :: (nl ++ ts)) ++ us := by simp
  have hbinary := Left.operator (by simpa using hleft) ht hnl hright
  rw [hws] at hsorted ⊢
  refine ihrest _ hsorted hbinary ?_
  refine .of_expression hsorted.left hbinary.expression ?_
  exact .follow hplanted ((Laid.single ihright).front (t :: nl))

/-- The target with the call makes the target of what follows. -/
theorem method {dot : Token Span} {lambda : Option (Lambda Span)}
    (hdot : dot.kind = .symbol .dot) (ht : t.kind = .name name)
    (hargs : Reads context .optionalArguments ts (us ++ (vs ++ after)) args)
    (hlambda : Reads context .optionalLambda us (vs ++ after) lambda)
    (ihargs : Plants context .optionalArguments ts (us ++ (vs ++ after)) args)
    (ihlambda : Plants context .optionalLambda us (vs ++ after) lambda)
    (ihrest : Plants context (.suffixes (.method (through first.span (dot :: t :: (ts ++ us)))
      first ⟨name, t.span⟩ args lambda)) vs after value) :
    Plants context (.suffixes first) (dot :: t :: (ts ++ (us ++ vs))) after value := by
  intro ws hsorted hstem hplanted
  have hws : ws ++ dot :: t :: (ts ++ (us ++ vs)) = (ws ++ dot :: t :: (ts ++ us)) ++ vs := by
    simp
  have hmethod := Stem.method (by simpa using hstem) hdot ht hargs hlambda
  have hcall : Laid context (t :: (ts ++ us)) (callChildren ⟨name, t.span⟩ args lambda) :=
    .call t name ihargs ihlambda
  rw [hws] at hsorted ⊢
  refine ihrest _ hsorted hmethod ?_
  refine .of_expression hsorted.left hmethod.expression ?_
  exact .follow hplanted (hcall.front [dot])

/-- The target with the keys makes the target of what follows. -/
theorem access (hopener : opener.kind = .symbol .openBracket) (htouching : opener.touching = true)
    (hkeys : Reads context (.elements .access) ts (closer :: (us ++ after)) keys)
    (hcloser : closer.kind = .symbol .closeBracket) (hne : keys ≠ [])
    (ihkeys : Plants context (.elements .access) ts (closer :: (us ++ after)) keys)
    (ihrest : Plants context
      (.suffixes (.access (Location.merge first.span closer.span) first keys)) us after value) :
    Plants context (.suffixes first) (opener :: (ts ++ closer :: us)) after value := by
  intro ws hsorted hstem hplanted
  have hws : ws ++ opener :: (ts ++ closer :: us) = (ws ++ opener :: (ts ++ [closer])) ++ us := by
    simp
  have haccess := Stem.access (by simpa using hstem) hopener htouching hkeys hcloser hne
  rw [hws] at hsorted ⊢
  refine ihrest _ hsorted haccess ?_
  refine .of_expression hsorted.left haccess.expression ?_
  exact .follow hplanted (Laid.between ihkeys [opener] [closer])

/-- Parentheses have no part of their own, they give the expression another span. -/
theorem parentheses (hs : Sorted (opener :: (nl ++ (ts ++ (nl' ++ [closer])))))
    (hopener : opener.kind = .symbol .openParen) (hnl : Newlines nl)
    (hinner : Reads context (.expression 0) ts (nl' ++ closer :: after) value)
    (hnl' : Newlines nl') (hcloser : closer.kind = .symbol .closeParen)
    (ih : Plants context (.expression 0) ts (nl' ++ closer :: after) value) :
    Plants context .primary (opener :: (nl ++ (ts ++ (nl' ++ [closer])))) after
      (value.withSpan (Location.merge opener.span closer.span)) := by
  refine .primary hs (.parentheses hopener hnl hinner hnl' hcloser) ?_
  rw [Expr.children_withSpan]
  exact (Planted.laid ih).between (opener :: nl) (nl' ++ [closer])

/-- Suffixes and then operators, behind a first expression that is read already. -/
theorem continued (hleft : Reads context (.suffixes first) ts (us ++ after) left)
    (ihleft : Plants context (.suffixes first) ts (us ++ after) left)
    (ihrest : Plants context (.operators 0 left) us after value) :
    Plants context (.continued first) (ts ++ us) after value := by
  intro ws hsorted hstem hplanted
  rw [List.append_assoc] at hstem
  rw [← List.append_assoc] at hsorted ⊢
  exact ihrest _ hsorted (hstem.left hleft) (ihleft _ hsorted.left hstem hplanted)

/-! ### rules of lists -/

/-- A parameter is one token, which is the part. -/
theorem moreParameters {place : Span} {params : List (Ident Span)}
    (ih : Plants context (.parameters place) ts after params) :
    Plants context (.parameters place) (nl ++ t :: (nl' ++ comma :: ts)) after
      (⟨name, t.span⟩ :: params) := by
  have hlaid := Laid.follow (.of_ident t name) (Laid.front ih (nl' ++ [comma]))
  exact (hlaid.front nl).of_eq (by simp)

/-- An element and the ones behind its comma. -/
theorem moreElements {construct : Construct} {rest : List (Token Span)}
    (ih : Plants context (.expression 0) ts rest value)
    (ihrest : Plants context (.elements construct) us after items) :
    Plants context (.elements construct) (nl ++ (ts ++ (nl' ++ comma :: us))) after
      (value :: items) := by
  have hlaid := Laid.follow ih (Laid.front ihrest (nl' ++ [comma]))
  exact (hlaid.front nl).of_eq (by simp)

/-- An entry has two parts, with the arrow between. -/
theorem lastEntry {key : Expr Span} {rest : List (Token Span)}
    (ihkey : Plants context (.expression 0) ts rest key)
    (ihvalue : Plants context (.expression 0) us (nl₃ ++ after) value) :
    Plants context .entries (ts ++ (nl₁ ++ arrow :: (nl₂ ++ (us ++ nl₃)))) after
      [⟨key, value⟩] := by
  have hvalue := (Laid.single ihvalue).between (nl₁ ++ arrow :: nl₂) nl₃
  exact (Laid.follow ihkey hvalue).of_eq (by simp)

/-- An entry and the ones behind its comma. -/
theorem moreEntries {key : Expr Span} {found : List (Entry Span)} {rest rest' : List (Token Span)}
    (ihkey : Plants context (.expression 0) ts rest key)
    (ihvalue : Plants context (.expression 0) us rest' value)
    (ihrest : Plants context .entries vs after found) :
    Plants context .entries
      (ts ++ (nl₁ ++ arrow :: (nl₂ ++ (us ++ (nl₃ ++ comma :: (nl₄ ++ vs)))))) after
      (⟨key, value⟩ :: found) := by
  have hvalue := Laid.follow ihvalue (Laid.front ihrest (nl₃ ++ comma :: nl₄))
  exact (Laid.follow ihkey (hvalue.front (nl₁ ++ arrow :: nl₂))).of_eq (by simp)

/-! ### rules of calls -/

/-- The parts of a call behind its name. -/
theorem callOf {callee : Ident Span} {lambda : Option (Lambda Span)}
    (hargs : Reads context .arguments ts (us ++ after) args)
    (hlambda : Reads context .optionalLambda us after lambda)
    (ihargs : Plants context .arguments ts (us ++ after) args)
    (ihlambda : Plants context .optionalLambda us after lambda) :
    Plants context (.callOf callee) (ts ++ us) after
      (.call (through callee.span (ts ++ us)) callee args lambda) := by
  intro t ht hspan hsorted
  obtain ⟨name, span⟩ := callee
  subst hspan
  exact primary hsorted (.name (.call ht (.callOf hargs hlambda)))
    (.call t name ihargs ihlambda)

/-- A lambda with no list of parameters begins with one token. -/
theorem lambdaNoList {body : Lambda Span} (hs : Sorted (t :: ts))
    (ht : t.kind = .symbol .pipePipe)
    (hbody : Reads context (.lambdaBody t.span []) ts after body)
    (ih : Plants context (.lambdaBody t.span []) ts after body) :
    Plants context .lambda (t :: ts) after body := by
  obtain ⟨hparams, hne, hspan, hlaid⟩ := ih
  have hcovers : Covers body.span (t :: ts) := hspan ▸ (Covers.single t).through hs hne
  refine .intro ((Reads.lambdaNoList ht hbody).alone trivial) hcovers ?_
  rw [Subtree.children, hparams]
  exact hlaid.front [t]

/-- A lambda with its parameters between the bars. -/
theorem lambda {params : List (Ident Span)} {body : Lambda Span}
    (hs : Sorted (opener :: (ts ++ closer :: us))) (hopener : opener.kind = .symbol .pipe)
    (hparams : Reads context (.parameters opener.span) ts (closer :: (us ++ after)) params)
    (hcloser : closer.kind = .symbol .pipe)
    (hbody : Reads context (.lambdaBody opener.span params) us after body)
    (ihparams : Plants context (.parameters opener.span) ts (closer :: (us ++ after)) params)
    (ihbody : Plants context (.lambdaBody opener.span params) us after body) :
    Plants context .lambda (opener :: (ts ++ closer :: us)) after body := by
  obtain ⟨hnames, hne, hspan, hlaid⟩ := ihbody
  have hcovers : Covers body.span (opener :: (ts ++ closer :: us)) := by
    rw [hspan, ← through_append opener.span hne, ← List.append_cons]
    exact (Covers.single opener).through (by simpa using hs) (by simp)
  refine .intro ((Reads.lambda hopener hparams hcloser hbody).alone trivial) hcovers ?_
  rw [Subtree.children, hnames]
  exact (Laid.append ihparams (hlaid.front [closer])).front [opener]

/-- The body of a lambda is its part behind the parameters. -/
theorem lambdaBody {place : Span} {params : List (Ident Span)} {body : Block Span}
    (hbody : Reads context (.block .lambdaBody) ts after body)
    (ih : Plants context (.block .lambdaBody) ts after body) :
    Plants context (.lambdaBody place params) (nl ++ ts) after
      ⟨through place ts, params, body⟩ := by
  have hne : ts ≠ [] := hbody.opens.ne_nil
  exact ⟨rfl, List.append_ne_nil_of_right_ne_nil nl hne, (through_append place hne).symm,
    (Laid.single ih).front nl⟩

/-! ### rules of statements -/

/-- The condition, the branch and the alternative. -/
theorem conditional {sense : Sense} {thenBranch : Block Span} {elseBranch : Option (Block Span)}
    (hs : Sorted (t :: (ts ++ (us ++ vs)))) (ht : opensCondition sense t.kind = true)
    (hcondition : Reads context (.expression 0) ts (us ++ (vs ++ after)) value)
    (hthen : Reads context (.block (Grammar.branchConstruct sense)) us (vs ++ after) thenBranch)
    (helse : Reads context (.alternative sense) vs after elseBranch)
    (ihcondition : Plants context (.expression 0) ts (us ++ (vs ++ after)) value)
    (ihthen : Plants context (.block (Grammar.branchConstruct sense)) us (vs ++ after) thenBranch)
    (ihelse : Plants context (.alternative sense) vs after elseBranch) :
    Plants context (.conditional sense) (t :: (ts ++ (us ++ vs))) after
      (.conditional (through t.span (ts ++ (us ++ vs))) sense value thenBranch elseBranch) := by
  have hconditional := (Reads.conditional ht hcondition hthen helse).alone trivial
  have hlaid := Laid.follow ihcondition (.follow ihthen ihelse)
  refine .intro ?_ (hconditional.extends hs) (hlaid.front [t])
  obtain helsif | hopens := opensCondition_cases ht
  · exact .inr (congrArg some helsif)
  · exact .inl (.branching hopens hconditional)

/-- The block that stands for `elsif` stands on the tokens of its only statement. -/
theorem elsifAlternative {nested : Stmt Span}
    (ih : Plants context (.conditional .ifTrue) (t :: ts) after nested) :
    Plants context (.alternative .ifTrue) (nl ++ t :: ts) after
      (some ⟨nested.span, [nested]⟩) := by
  have hnested : Planted context (t :: ts) (.stmt nested) := ih
  have hblock : Planted context (t :: ts) (.block ⟨nested.span, [nested]⟩) :=
    .intro trivial hnested.covers (.single hnested)
  exact (Laid.single hblock).front nl

/-- A call that begins a statement, with what goes on after it. -/
theorem callRest (hs : Sorted (t :: (ts ++ us))) (ht : t.kind = .name name)
    (hcall : Reads context (.callOf ⟨name, t.span⟩) ts (us ++ after) call)
    (ihcall : Plants context (.callOf ⟨name, t.span⟩) ts (us ++ after) call)
    (ihrest : Plants context (.continued call) us after whole) :
    Planted context (t :: (ts ++ us)) (.expr whole) := by
  have hfirst : Sorted (t :: ts) := hs.of_sublist (List.sublist_append_left (t :: ts) us)
  exact ihrest (t :: ts) hs (.of_primary (.name (.call ht hcall))) (ihcall t ht rfl hfirst)

/-- A call in parentheses that is the whole statement. -/
theorem wholeCall {place : Span} {callee : Ident Span} {lambda : Option (Lambda Span)}
    (hs : Sorted (t :: (ts ++ us))) (ht : t.kind = .name name)
    (hcall : Reads context (.callOf ⟨name, t.span⟩) ts (us ++ after) call)
    (hrest : Reads context (.continued call) us after (.call place callee args lambda))
    (hafter : headKind after ≠ some (.symbol .assign))
    (ihcall : Plants context (.callOf ⟨name, t.span⟩) ts (us ++ after) call)
    (ihrest : Plants context (.continued call) us after (.call place callee args lambda)) :
    Plants context .callable (t :: (ts ++ us)) after
      (.statement (.invoke place callee args lambda)) := by
  have hwhole := Reads.invocation (.wholeCall ht hcall hrest hafter)
  exact .of_statement hs (hwhole.alone trivial) (callRest hs ht hcall ihcall ihrest).laid

/-- A call without parentheses, whose arguments are its parts. -/
theorem bareCall (hs : Sorted (t :: ts)) (ht : t.kind = .name name)
    (hbegins :
      Grammar.beginsArgument (headKind (ts ++ after)) (headTouches (ts ++ after)) = true)
    (hargs : Reads context .bareArguments ts after args)
    (hcount : args.length ≤ 1 ∨ name ∈ context.calls)
    (ih : Plants context .bareArguments ts after args) :
    Plants context .callable (t :: ts) after
      (.statement (.invoke (through t.span ts) ⟨name, t.span⟩ args none)) := by
  have hwhole := Reads.invocation (.bareCall ht hbegins hargs hcount)
  refine .of_statement hs (hwhole.alone trivial) ?_
  rw [← List.append_nil ts]
  exact .call t name ih (.nil [])

/-- A name that no arguments follow is an expression. -/
theorem wordValue (hs : Sorted (t :: ts)) (ht : t.kind = .name name)
    (hparen : headKind (ts ++ after) ≠ some (.symbol .openParen))
    (ih : Plants context (.continued (.word t.span name)) ts after whole) :
    Plants context .callable (t :: ts) after (.value whole) := by
  have hword : Reads context .primary [t] (ts ++ after) (.word t.span name) :=
    .name (.word ht hparen)
  have hfirst : Sorted [t] := hs.of_sublist (List.sublist_append_left [t] ts)
  exact ih [t] hs (.of_primary hword) (.of_expression hfirst hword.expression_of_primary (.nil _))

end Phrase.Plants

/-- Every part of what is read is read again from the tokens within its span, by the phrase for
its kind. -/
theorem Reads.plants {p : Phrase Span} {ts after : List (Token Span)} {v : p.Value}
    (h : Reads context p ts after v) : Sorted ts → p.Plants context ts after v := by
  induction h with
  | noParameters => exact fun _ => .nil _
  | @lastParameter _ t _ nl nl' => exact fun _ => (Laid.single (.of_ident t _)).between nl nl'
  | moreParameters _ _ _ _ _ ih => exact fun hs => .moreParameters (ih hs.right.tail.right.tail)
  | expression hleft _ ihleft ihrest =>
    exact fun hs => ihrest hs.right _ hs (.of_operand hleft) (ihleft hs.left)
  | noOperator =>
    intro _ us _ _ hplanted
    rwa [List.append_nil]
  | operator ht _ hnl hright _ ihright ihrest =>
    exact fun hs =>
      .operator ht hnl hright (ihright hs.tail.right.left) (ihrest hs.tail.right.right)
  | sign ht hinner ih => exact fun hs => .sign hs ht hinner (ih hs.tail)
  | operand hfirst _ ihfirst ihrest =>
    exact fun hs => ihrest hs.right _ hs (.of_primary hfirst) (ihfirst hs.left)
  | noSuffix =>
    intro _ us _ _ hplanted
    rwa [List.append_nil]
  | method hdot ht hargs hlambda _ ihargs ihlambda ihrest =>
    exact fun hs => .method hdot ht hargs hlambda (ihargs hs.tail.tail.left)
      (ihlambda hs.tail.tail.right.left) (ihrest hs.tail.tail.right.right)
  | access hopener htouching hkeys hcloser hne _ ihkeys ihrest =>
    exact fun hs => .access hopener htouching hkeys hcloser hne (ihkeys hs.tail.left)
      (ihrest hs.tail.right.tail)
  | var ht => exact fun hs => .primary hs (.var ht) (.nil _)
  | reference ht => exact fun hs => .primary hs (.reference ht) (.nil _)
  | literal ht => exact fun hs => .primary hs (.literal ht) (.nil _)
  | name _ ih => exact ih
  | @array opener closer _ _ _ hopener hitems hcloser ih =>
    exact fun hs => .primary hs (.array hopener hitems hcloser)
      (Laid.between (ih hs.tail.left) [opener] [closer])
  | @hash opener closer _ nl _ _ hopener hnl hfound hcloser ih =>
    exact fun hs => .primary hs (.hash hopener hnl hfound hcloser)
      (Laid.between (ih hs.tail.right.left) (opener :: nl) [closer])
  | parentheses hopener hnl hinner hnl' hcloser ih =>
    exact fun hs => .parentheses hs hopener hnl hinner hnl' hcloser (ih hs.tail.right.left)
  | noElements => exact fun _ => .nil _
  | @lastElement _ _ nl nl' _ _ _ _ _ _ _ ih =>
    exact fun hs => (Laid.single (ih hs.right.left)).between nl nl'
  | moreElements _ _ _ _ _ ih ihrest =>
    exact fun hs => .moreElements (ih hs.right.left) (ihrest hs.right.right.right.tail)
  | noEntries => exact fun _ => .nil _
  | lastEntry _ _ _ _ _ _ _ _ ihkey ihvalue =>
    exact fun hs => .lastEntry (ihkey hs.left) (ihvalue hs.right.right.tail.right.left)
  | moreEntries _ _ _ _ _ _ _ _ _ _ ihkey ihvalue ihrest =>
    intro hs
    have hafter := hs.right.right.tail.right
    exact .moreEntries (ihkey hs.left) (ihvalue hafter.left)
      (ihrest hafter.right.right.tail.right)
  | @arguments opener closer _ _ _ _ _ _ ih =>
    exact fun hs => Laid.between (ih hs.tail.left) [opener] [closer]
  | noArguments => exact fun _ => .nil _
  | someArguments _ ih => exact ih
  | bareArguments _ _ ihfirst ihrest =>
    exact fun hs => .follow (ihfirst hs.left) (ihrest hs.right)
  | noMoreArguments => exact fun _ => .nil _
  | @moreArguments comma _ _ nl _ _ _ _ _ _ _ ihfirst ihrest =>
    exact fun hs => (Laid.follow (ihfirst hs.tail.right.left)
      (ihrest hs.tail.right.right)).front (comma :: nl)
  | word ht hafter => exact fun hs => Phrase.Plants.primary hs (.name (.word ht hafter)) (.nil _)
  | @call t _ _ _ _ ht _ ih => exact fun hs => ih hs.tail t ht rfl hs
  | callOf hargs hlambda ihargs ihlambda =>
    exact fun hs => .callOf hargs hlambda (ihargs hs.left) (ihlambda hs.right)
  | noLambda => exact fun _ => .nil _
  | someLambda _ ih => exact fun hs => .single (ih hs)
  | lambdaNoList ht hbody ih => exact fun hs => .lambdaNoList hs ht hbody (ih hs.tail)
  | lambda hopener hparams hcloser hbody ihparams ihbody =>
    exact fun hs => .lambda hs hopener hparams hcloser hbody (ihparams hs.tail.left)
      (ihbody hs.tail.right.tail)
  | lambdaBody _ hbody ih => exact fun hs => .lambdaBody hbody (ih hs.right)
  | @block _ opener closer _ ts _ _ _ _ ih =>
    exact fun hs =>
      .intro trivial (.brackets hs) (Laid.between (ih hs.tail.left) [opener] [closer])
  | noStatements => exact fun _ => .nil _
  | @moreStatements _ _ seps _ _ _ _ _ _ _ ihfirst ihrest =>
    exact fun hs => (Laid.follow (ihfirst hs.right.left) (ihrest hs.right.right)).front seps
  | branching _ _ ih => exact ih
  | invocation _ ih => exact ih
  | callableValue hcallable hstmt ih ihstmt =>
    intro hs
    have hwhole := (Reads.callableValue hcallable hstmt).alone trivial
    exact ihstmt hs.right _ hs hwhole (ih hs.left)
  | value hname hexpr hstmt ih ihstmt =>
    intro hs
    have hwhole := (Reads.value hname hexpr hstmt).alone trivial
    exact ihstmt hs.right _ hs hwhole (ih hs.left)
  | @assignment _ _ t nl _ _ _ _ _ _ ih =>
    intro hs us hsorted hwhole hplanted
    have hvalue := Laid.single (ih hs.tail.right)
    exact .of_statement hsorted hwhole (.follow hplanted (hvalue.front (t :: nl)))
  | noAssignment =>
    intro _ us hsorted hwhole hplanted
    refine .of_statement hsorted hwhole ?_
    rw [List.append_nil]
    exact .single hplanted
  | conditional ht hcondition hthen helse ihcondition ihthen ihelse =>
    exact fun hs => .conditional hs ht hcondition hthen helse (ihcondition hs.tail.left)
      (ihthen hs.tail.right.left) (ihelse hs.tail.right.right)
  | noAlternative => exact fun _ => .nil _
  | elsifAlternative _ _ _ ih => exact fun hs => .elsifAlternative (ih hs.right)
  | @elseAlternative _ _ t nl _ _ _ _ _ ih =>
    exact fun hs => ((Laid.single (ih hs.right.tail)).front (nl ++ [t])).of_eq (by simp)
  | wholeCall ht hcall hrest hafter ihcall ihrest =>
    exact fun hs =>
      .wholeCall hs ht hcall hrest hafter (ihcall hs.tail.left) (ihrest hs.tail.right)
  | callValue ht hcall _ _ ihcall ihrest =>
    exact fun hs =>
      Phrase.Plants.callRest hs ht hcall (ihcall hs.tail.left) (ihrest hs.tail.right)
  | bareCall ht hbegins hargs hcount ih =>
    exact fun hs => .bareCall hs ht hbegins hargs hcount (ih hs.tail)
  | wordValue ht hparen _ _ ih => exact fun hs => .wordValue hs ht hparen (ih hs.tail)
  | continued hleft _ ihleft ihrest =>
    exact fun hs => .continued hleft (ihleft hs.left) (ihrest hs.right)
  | noProgram _ ih => exact ih
  | program _ _ ih => exact ih

end CallGrammar
