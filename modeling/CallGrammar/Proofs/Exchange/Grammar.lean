import CallGrammar.Proofs.Exchange

/-!
# CallGrammar.Proofs.Exchange.Grammar

Every statement and every body of a tree can be exchanged on its tokens
(`Reads.exchanges`).  The induction is on the derivation: the part is in one of the phrases
of a rule, so with other tokens that phrase derives the same, those before it do as they
end before the same token, and those behind it do not change.
-/

namespace CallGrammar

open Subtree

variable {σ : Type}

/-- The parts of what the phrase is read as. -/
def Phrase.parts : (p : Phrase σ) → p.Value → List (Subtree σ)
  | parameters _, _ => []
  | expression _, v | operators _ _, v | operand, v | suffixes _, v | primary, v | callOrWord, v
  | callOf _, v | continued _, v => Expr.children v
  | elements _, v | arguments, v | optionalArguments, v | bareArguments, v
  | moreBareArguments, v => v.map .expr
  | entries, v => v.flatMap Entry.children
  | optionalLambda, v => v.toList.map .lambda
  | lambda, v | lambdaBody _ _, v => [.block (Lambda.body v)]
  | block _, v => (Block.stmts v).map .stmt
  | statements, v => v.map .stmt
  | statement, v | valueStatement _, v | conditional _, v => Stmt.children v
  | alternative _, v => v.toList.map .block
  | callable, .statement s => s.children
  | callable, .value e => e.children
  | program, v => (Program.body v).stmts.map .stmt

/-- The parts of what has been read before the phrase. -/
def Phrase.known : Phrase σ → List (Subtree σ)
  | operators _ first | suffixes first | continued first | valueStatement first => first.children
  | _ => []

variable [Location σ] {context : Context σ}

/-- A closed part of what the phrase is read as, unless it has been read before the phrase,
can be exchanged in it. -/
def Phrase.Exchanges (context : Context σ) (p : Phrase σ) (ts after : List (Token σ))
    (v : p.Value) : Prop :=
  ∀ ⦃m : Subtree σ⦄, m.IsClosed → m.In (p.parts v) →
    m.In p.known ∨ CallGrammar.Exchanges context m p v ts after

section

variable {ts after : List (Token σ)} {m : Subtree σ}

/-- Where nothing has been read before the phrase, each part of it is in its tokens. -/
theorem Phrase.Exchanges.all {p : Phrase σ} {v : p.Value} (h : p.Exchanges context ts after v)
    (hknown : p.known = []) (hm : m.IsClosed) (hin : m.In (p.parts v)) :
    CallGrammar.Exchanges context m p v ts after := by
  refine (h hm hin).resolve_left fun hin => ?_
  rw [hknown] at hin
  exact not_in_nil hin

/-- A body is exchanged as a whole, or a part of it is. -/
theorem Reads.exchanges_block {construct : Construct} {b : Block σ}
    (h : Reads context (.block construct) ts after b) (hbraces : construct.closer = .closeBrace)
    (ih : (Phrase.block construct).Exchanges context ts after b) (hm : m.IsClosed)
    (hin : (Subtree.block b).Contains m) :
    Exchanges context m (.block construct) b ts after := by
  obtain rfl | hin := hin.cases
  · obtain ⟨t, us, rfl, -⟩ := (StandsOn.block hbraces h).exists_cons
    exact .here (.block hbraces h) fun ht us hus => hus.body ht hbraces
  · exact ih.all rfl hm hin

/-- A statement is exchanged as a whole, or a part of it is. -/
theorem Reads.exchanges_statement {s : Stmt σ} (h : Reads context .statement ts after s)
    (ih : Phrase.statement.Exchanges context ts after s) (hm : m.IsClosed)
    (hin : (Subtree.stmt s).Contains m) : Exchanges context m .statement s ts after := by
  obtain rfl | hin := hin.cases
  · obtain ⟨t, us, rfl, -⟩ := (StandsOn.stmt h).exists_cons
    exact .here (.stmt h) fun ht us hus => hus.statement ht
  · exact ih.all rfl hm hin

/-- An `elsif` with its condition and branches stands on its tokens, twice over; its own parts
are exchanged. -/
theorem Reads.exchanges_branch {s : Stmt σ} {t : Token σ} (ht : t.kind = .keyword .elsifWord)
    (h : Reads context (.conditional .ifTrue) (t :: ts) after s)
    (ih : (Phrase.conditional .ifTrue).Exchanges context (t :: ts) after s) (hm : m.IsClosed)
    (hin : (Subtree.block ⟨s.span, [s]⟩).Contains m) :
    Exchanges context m (.conditional .ifTrue) s (t :: ts) after := by
  obtain rfl | hin := hin.cases
  · exact .here (.branch ht h (.inr rfl)) fun hne => absurd ht hne
  · obtain rfl | hin := ((in_cons.1 hin).resolve_right not_in_nil).cases
    · exact .here (.branch ht h (.inl rfl)) fun hne => absurd ht hne
    · exact ih.all rfl hm hin

end

/-! ## every phrase -/

namespace Phrase.Exchanges

/-- A phrase that has one phrase in it, with all its parts. -/
theorem within {p p' : Phrase σ} {v : p.Value} {v' : p'.Value}
    {ts whole rest after : List (Token σ)} (h : p'.Exchanges context ts rest v')
    (hknown : p'.known = [])
    (hparts : ∀ {m : Subtree σ}, m.IsClosed → m.In (p.parts v) → m.In (p'.parts v'))
    (gap gap' : List (Token σ)) (hwhole : whole = gap ++ (ts ++ gap'))
    (hrest : rest = gap' ++ after)
    (hreads : ∀ ts', Swapped ts ts' → Reads context p' ts' rest v' →
      Reads context p (gap ++ (ts' ++ gap')) after v) : p.Exchanges context whole after v :=
  fun _ hm hin => .inr ((h.all hknown hm (hparts hm hin)).lift gap gap' hwhole hrest hreads)

/-- A phrase that is another one and what goes on with it. -/
theorem follow {p p₁ p₂ : Phrase σ} {v : p.Value} {v₁ : p₁.Value} {v₂ : p₂.Value}
    {ts us whole after : List (Token σ)} (h₁ : p₁.Exchanges context ts (us ++ after) v₁)
    (h₂ : p₂.Exchanges context us after v₂) (hknown : p₁.known = p.known)
    (hknown' : p₂.known = p₁.parts v₁) (hparts : p.parts v = p₂.parts v₂) (gap : List (Token σ))
    (hwhole : whole = gap ++ (ts ++ us))
    (hreads₁ : ∀ ts', Swapped ts ts' → Reads context p₁ ts' (us ++ after) v₁ →
      Reads context p (gap ++ (ts' ++ us)) after v)
    (hreads₂ : ∀ us', Swapped us us' → Reads context p₂ us' after v₂ →
      Reads context p (gap ++ (ts ++ us')) after v) :
    p.Exchanges context whole after v := by
  subst hwhole
  intro m hm hin
  rw [hparts] at hin
  obtain hin | h := h₂ hm hin
  · rw [hknown'] at hin
    obtain hin | h := h₁ hm hin
    · exact .inl (hknown ▸ hin)
    · exact .inr (h.lift gap us rfl rfl hreads₁)
  · refine .inr (h.lift (gap ++ ts) [] (by simp) rfl fun us' hus hus' => ?_)
    exact (hreads₂ us' hus hus').of_eq (by simp)

/-- A phrase with no parts. -/
theorem nil {p : Phrase σ} {v : p.Value} {ts after : List (Token σ)} (h : p.parts v = []) :
    p.Exchanges context ts after v :=
  fun _ _ hin => absurd (h ▸ hin) not_in_nil

variable {t opener closer comma : Token σ} {name : String} {floor : Nat}
  {nl nl' ts us vs after : List (Token σ)} {target left right whole : Expr σ}

/-! ## expressions -/

/-- The part is in the first operand or in what goes on after it. -/
theorem expression (hleft : Reads context .operand ts (us ++ after) left)
    (hrest : Reads context (.operators floor left) us after whole)
    (ihleft : Exchanges context .operand ts (us ++ after) left)
    (ihrest : Exchanges context (.operators floor left) us after whole) :
    Exchanges context (.expression floor) (ts ++ us) after whole := by
  refine .follow ihleft ihrest rfl rfl rfl [] rfl (fun ts' _ hts => ?_) fun us' hus hus' => ?_
  · exact (Reads.expression hts hrest).of_eq (by simp)
  · have hleft := hleft.before rfl (hus.calmer after) trivial
    exact (Reads.expression hleft hus').of_eq (by simp)

/-- The part is in the right operand or in what goes on; the left one is given. -/
theorem operator {op : BinaryOp} (ht : BinaryOp.ofKind? t.kind = some op)
    (hlevel : floor ≤ op.level) (hnl : Newlines nl)
    (hright : Reads context (.expression (op.level + 1)) ts (us ++ after) right)
    (hrest : Reads context
      (.operators floor (.binary (Location.merge left.span right.span) op left right))
      us after whole)
    (ihright : Exchanges context (.expression (op.level + 1)) ts (us ++ after) right)
    (ihrest : Exchanges context
      (.operators floor (.binary (Location.merge left.span right.span) op left right))
      us after whole) :
    Exchanges context (.operators floor left) (t :: (nl ++ (ts ++ us))) after whole := by
  intro m hm hin
  obtain hin | h := ihrest hm hin
  · obtain hin | hin := in_cons.1 hin
    · exact .inl (hm.in_expr hin)
    · have h := ihright.all rfl hm (hm.in_single hin)
      refine .inr (h.lift (t :: nl) us rfl rfl fun ts' _ hts => ?_)
      exact (Reads.operator ht hlevel hnl hts hrest).of_eq (by simp)
  · refine .inr (h.lift (t :: (nl ++ ts)) [] (by simp) rfl fun us' hus hus' => ?_)
    have hright := hright.before rfl (hus.calmer after) trivial
    exact (Reads.operator ht hlevel hnl hright hus').of_eq (by simp)

theorem sign {op : UnaryOp} {inner : Expr σ} (ht : UnaryOp.ofKind? t.kind = some op)
    (ih : Exchanges context .operand ts after inner) :
    Exchanges context .operand (t :: ts) after
      (.unary (Location.merge t.span inner.span) op inner) := by
  refine ih.within rfl (fun hm hin => hm.in_single hin) [t] [] (by simp) rfl fun ts' _ hts => ?_
  exact (Reads.sign ht hts).of_eq (by simp)

theorem operand {first : Expr σ} (hfirst : Reads context .primary ts (us ++ after) first)
    (hrest : Reads context (.suffixes first) us after whole)
    (ihfirst : Exchanges context .primary ts (us ++ after) first)
    (ihrest : Exchanges context (.suffixes first) us after whole) :
    Exchanges context .operand (ts ++ us) after whole := by
  refine .follow ihfirst ihrest rfl rfl rfl [] rfl (fun ts' _ hts => ?_) fun us' hus hus' => ?_
  · exact (Reads.operand hts hrest).of_eq (by simp)
  · have hfirst := hfirst.before rfl (hus.calmer after) trivial
    exact (Reads.operand hfirst hus').of_eq (by simp)

/-- The part is in the arguments, in the lambda or in what goes on. -/
theorem method {dot : Token σ} {args : List (Expr σ)} {lambda : Option (Lambda σ)}
    (hdot : dot.kind = .symbol .dot) (ht : t.kind = .name name)
    (hargs : Reads context .optionalArguments ts (us ++ (vs ++ after)) args)
    (hlambda : Reads context .optionalLambda us (vs ++ after) lambda)
    (hrest : Reads context (.suffixes (.method (through target.span (dot :: t :: (ts ++ us)))
      target ⟨name, t.span⟩ args lambda)) vs after whole)
    (ihargs : Exchanges context .optionalArguments ts (us ++ (vs ++ after)) args)
    (ihlambda : Exchanges context .optionalLambda us (vs ++ after) lambda)
    (ihrest : Exchanges context (.suffixes (.method
      (through target.span (dot :: t :: (ts ++ us))) target ⟨name, t.span⟩ args lambda))
      vs after whole) :
    Exchanges context (.suffixes target) (dot :: t :: (ts ++ (us ++ vs))) after whole := by
  -- the place of the call is all that what follows keeps of its tokens
  have hcall {ts' us' : List (Token σ)} (hswapped : Swapped (ts ++ us) (ts' ++ us'))
      (hargs : Reads context .optionalArguments ts' (us' ++ (vs ++ after)) args)
      (hlambda : Reads context .optionalLambda us' (vs ++ after) lambda) :
      Reads context (.suffixes target) (dot :: t :: (ts' ++ (us' ++ vs))) after whole := by
    have hspan : through target.span (dot :: t :: (ts' ++ us'))
        = through target.span (dot :: t :: (ts ++ us)) :=
      (hswapped.front [dot, t]).through target.span
    exact .method hdot ht hargs hlambda (hspan ▸ hrest)
  intro m hm hin
  obtain hin | h := ihrest hm hin
  · obtain hin | hin := in_cons.1 hin
    · exact .inl (hm.in_expr hin)
    obtain hin | hin := hm.in_call hin
    · have h := ihargs.all rfl hm hin
      refine .inr (h.lift [dot, t] (us ++ vs) rfl (by simp) fun ts' hts hts' => ?_)
      exact (hcall (hts.behind us) hts' hlambda).of_eq (by simp)
    · have h := ihlambda.all rfl hm hin
      refine .inr (h.lift (dot :: t :: ts) vs rfl rfl fun us' hus hus' => ?_)
      have hargs := hargs.before rfl (hus.calmer (vs ++ after)) trivial
      exact (hcall (hus.front ts) hargs hus').of_eq (by simp)
  · refine .inr (h.lift (dot :: t :: (ts ++ us)) [] (by simp) rfl fun vs' hvs hvs' => ?_)
    have hcalmer := hvs.calmer after
    exact (Reads.method hdot ht (hargs.before rfl (hcalmer.append us) trivial)
      (hlambda.before rfl hcalmer trivial) hvs').of_eq (by simp)

/-- The part is in the keys or in what goes on. -/
theorem access {keys : List (Expr σ)} (hopener : opener.kind = .symbol .openBracket)
    (htouching : opener.touching = true)
    (hkeys : Reads context (.elements .access) ts (closer :: (us ++ after)) keys)
    (hcloser : closer.kind = .symbol .closeBracket) (hne : keys ≠ [])
    (hrest : Reads context
      (.suffixes (.access (Location.merge target.span closer.span) target keys)) us after whole)
    (ihkeys : Exchanges context (.elements .access) ts (closer :: (us ++ after)) keys)
    (ihrest : Exchanges context
      (.suffixes (.access (Location.merge target.span closer.span) target keys))
      us after whole) :
    Exchanges context (.suffixes target) (opener :: (ts ++ closer :: us)) after whole := by
  intro m hm hin
  obtain hin | h := ihrest hm hin
  · obtain hin | hin := in_cons.1 hin
    · exact .inl (hm.in_expr hin)
    · have h := ihkeys.all rfl hm hin
      refine .inr (h.lift [opener] (closer :: us) rfl rfl fun ts' _ hts => ?_)
      exact (Reads.access hopener htouching hts hcloser hne hrest).of_eq (by simp)
  · refine .inr (h.lift (opener :: (ts ++ [closer])) [] (by simp) rfl fun us' hus hus' => ?_)
    have hkeys : Reads context (.elements .access) ts (closer :: (us' ++ after)) keys :=
      hkeys.before rfl ((hus.calmer after).append [closer]) (.inr rfl)
    exact (Reads.access hopener htouching hkeys hcloser hne hus').of_eq (by simp)

theorem array {items : List (Expr σ)} (hopener : opener.kind = .symbol .openBracket)
    (hcloser : closer.kind = .symbol .closeBracket)
    (ih : Exchanges context (.elements .array) ts (closer :: after) items) :
    Exchanges context .primary (opener :: (ts ++ [closer])) after
      (.array (Location.merge opener.span closer.span) items) := by
  refine ih.within rfl (fun _ hin => hin) [opener] [closer] rfl rfl fun ts' _ hts => ?_
  exact (Reads.array hopener hts hcloser).of_eq (by simp)

theorem hash {found : List (Entry σ)} (hopener : opener.kind = .symbol .openBrace)
    (hnl : Newlines nl) (hcloser : closer.kind = .symbol .closeBrace)
    (ih : Exchanges context .entries ts (closer :: after) found) :
    Exchanges context .primary (opener :: (nl ++ (ts ++ [closer]))) after
      (.hash (Location.merge opener.span closer.span) found) := by
  refine ih.within rfl (fun _ hin => hin) (opener :: nl) [closer] rfl rfl fun ts' _ hts => ?_
  exact (Reads.hash hopener hnl hts hcloser).of_eq (by simp)

/-- The part is in the parentheses: the tokens of the brackets stay. -/
theorem parentheses {inner : Expr σ} (hopener : opener.kind = .symbol .openParen)
    (hnl : Newlines nl) (hnl' : Newlines nl') (hcloser : closer.kind = .symbol .closeParen)
    (ih : Exchanges context (.expression 0) ts (nl' ++ closer :: after) inner) :
    Exchanges context .primary (opener :: (nl ++ (ts ++ (nl' ++ [closer])))) after
      (inner.withSpan (Location.merge opener.span closer.span)) := by
  have hparts {m : Subtree σ}
      (hin : m.In (inner.withSpan (Location.merge opener.span closer.span)).children) :
      m.In inner.children := by rwa [Expr.children_withSpan] at hin
  refine ih.within rfl (fun _ hin => hparts hin) (opener :: nl) (nl' ++ [closer]) rfl (by simp)
    fun ts' _ hts => ?_
  exact (Reads.parentheses hopener hnl hts hnl' hcloser).of_eq (by simp)

/-! ## lists -/

theorem lastElement {construct : Construct} {item : Expr σ} (hnl : Newlines nl)
    (hnl' : Newlines nl') (hnewline : headKind after ≠ some .newline)
    (hcomma : headKind after ≠ some (.symbol .comma))
    (ih : Exchanges context (.expression 0) ts (nl' ++ after) item) :
    Exchanges context (.elements construct) (nl ++ (ts ++ nl')) after [item] := by
  refine ih.within rfl (fun hm hin => hm.in_single hin) nl nl' rfl rfl fun ts' _ hts => ?_
  exact .lastElement hnl hts hnl' hnewline hcomma

/-- The part is in the first element or in the others. -/
theorem moreElements {construct : Construct} {item : Expr σ} {items : List (Expr σ)}
    (hnl : Newlines nl)
    (hitem : Reads context (.expression 0) ts (nl' ++ comma :: (us ++ after)) item)
    (hnl' : Newlines nl') (hcomma : comma.kind = .symbol .comma)
    (hrest : Reads context (.elements construct) us after items)
    (ih : Exchanges context (.expression 0) ts (nl' ++ comma :: (us ++ after)) item)
    (ihrest : Exchanges context (.elements construct) us after items) :
    Exchanges context (.elements construct) (nl ++ (ts ++ (nl' ++ comma :: us))) after
      (item :: items) := by
  intro m hm hin
  obtain hin | hin := in_cons.1 hin
  · have h := ih.all rfl hm (hm.in_expr hin)
    refine .inr (h.lift nl (nl' ++ comma :: us) rfl (by simp) fun ts' _ hts => ?_)
    exact .moreElements hnl hts hnl' hcomma hrest
  · have h := ihrest.all rfl hm hin
    refine .inr (h.lift (nl ++ (ts ++ (nl' ++ [comma]))) [] (by simp) rfl fun us' hus hus' => ?_)
    have hitem : Reads context (.expression 0) ts (nl' ++ comma :: (us' ++ after)) item :=
      hitem.before rfl (((hus.calmer after).append [comma]).append nl') trivial
    exact (Reads.moreElements hnl hitem hnl' hcomma hus').of_eq (by simp)

section

variable {arrow : Token σ} {nl₁ nl₂ nl₃ nl₄ : List (Token σ)} {key value : Expr σ}

theorem lastEntry
    (hkey : Reads context (.expression 0) ts
      (nl₁ ++ arrow :: (nl₂ ++ (us ++ (nl₃ ++ after)))) key) (hnl₁ : Newlines nl₁)
    (harrow : arrow.kind = .symbol .arrow) (hnl₂ : Newlines nl₂)
    (hvalue : Reads context (.expression 0) us (nl₃ ++ after) value) (hnl₃ : Newlines nl₃)
    (hnewline : headKind after ≠ some .newline) (hcomma : headKind after ≠ some (.symbol .comma))
    (ihkey : Exchanges context (.expression 0) ts
      (nl₁ ++ arrow :: (nl₂ ++ (us ++ (nl₃ ++ after)))) key)
    (ihvalue : Exchanges context (.expression 0) us (nl₃ ++ after) value) :
    Exchanges context .entries (ts ++ (nl₁ ++ arrow :: (nl₂ ++ (us ++ nl₃)))) after
      [⟨key, value⟩] := by
  intro m hm hin
  obtain hin | hin := in_cons.1 hin
  · have h := ihkey.all rfl hm (hm.in_expr hin)
    refine .inr (h.lift [] (nl₁ ++ arrow :: (nl₂ ++ (us ++ nl₃))) rfl (by simp)
      fun ts' _ hts => ?_)
    exact (Reads.lastEntry (by simpa using hts) hnl₁ harrow hnl₂ hvalue hnl₃ hnewline
      hcomma).of_eq (by simp)
  · have h := ihvalue.all rfl hm (hm.in_single hin)
    refine .inr (h.lift (ts ++ (nl₁ ++ arrow :: nl₂)) nl₃ (by simp) rfl fun us' hus hus' => ?_)
    have hkey : Reads context (.expression 0) ts
        (nl₁ ++ arrow :: (nl₂ ++ (us' ++ (nl₃ ++ after)))) key :=
      hkey.before rfl ((((hus.calmer (nl₃ ++ after)).append nl₂).append [arrow]).append nl₁)
        trivial
    exact (Reads.lastEntry hkey hnl₁ harrow hnl₂ hus' hnl₃ hnewline hcomma).of_eq (by simp)

/-- The part is in the first key, in its value or in the other entries. -/
theorem moreEntries {found : List (Entry σ)}
    (hkey : Reads context (.expression 0) ts
      (nl₁ ++ arrow :: (nl₂ ++ (us ++ (nl₃ ++ comma :: (nl₄ ++ (vs ++ after)))))) key)
    (hnl₁ : Newlines nl₁) (harrow : arrow.kind = .symbol .arrow) (hnl₂ : Newlines nl₂)
    (hvalue : Reads context (.expression 0) us (nl₃ ++ comma :: (nl₄ ++ (vs ++ after))) value)
    (hnl₃ : Newlines nl₃) (hcomma : comma.kind = .symbol .comma) (hnl₄ : Newlines nl₄)
    (hnewline : headKind (vs ++ after) ≠ some .newline)
    (hrest : Reads context .entries vs after found)
    (ihkey : Exchanges context (.expression 0) ts
      (nl₁ ++ arrow :: (nl₂ ++ (us ++ (nl₃ ++ comma :: (nl₄ ++ (vs ++ after)))))) key)
    (ihvalue : Exchanges context (.expression 0) us
      (nl₃ ++ comma :: (nl₄ ++ (vs ++ after))) value)
    (ihrest : Exchanges context .entries vs after found) :
    Exchanges context .entries
      (ts ++ (nl₁ ++ arrow :: (nl₂ ++ (us ++ (nl₃ ++ comma :: (nl₄ ++ vs)))))) after
      (⟨key, value⟩ :: found) := by
  intro m hm hin
  obtain hin | hin := in_cons.1 hin
  · have h := ihkey.all rfl hm (hm.in_expr hin)
    refine .inr (h.lift [] (nl₁ ++ arrow :: (nl₂ ++ (us ++ (nl₃ ++ comma :: (nl₄ ++ vs))))) rfl
      (by simp) fun ts' _ hts => ?_)
    exact (Reads.moreEntries (by simpa using hts) hnl₁ harrow hnl₂ hvalue hnl₃ hcomma hnl₄
      hnewline hrest).of_eq (by simp)
  obtain hin | hin := in_cons.1 hin
  · have h := ihvalue.all rfl hm (hm.in_expr hin)
    refine .inr (h.lift (ts ++ (nl₁ ++ arrow :: nl₂)) (nl₃ ++ comma :: (nl₄ ++ vs)) (by simp)
      (by simp) fun us' hus hus' => ?_)
    have hkey : Reads context (.expression 0) ts
        (nl₁ ++ arrow :: (nl₂ ++ (us' ++ (nl₃ ++ comma :: (nl₄ ++ (vs ++ after)))))) key :=
      hkey.before rfl ((((hus.calmer _).append nl₂).append [arrow]).append nl₁) trivial
    exact (Reads.moreEntries hkey hnl₁ harrow hnl₂ hus' hnl₃ hcomma hnl₄ hnewline hrest).of_eq
      (by simp)
  · have h := ihrest.all rfl hm hin
    refine .inr (h.lift (ts ++ (nl₁ ++ arrow :: (nl₂ ++ (us ++ (nl₃ ++ comma :: nl₄))))) []
      (by simp) rfl fun vs' hvs hvs' => ?_)
    have hcalmer := (((hvs.calmer after).append nl₄).append [comma]).append nl₃
    have hkey : Reads context (.expression 0) ts
        (nl₁ ++ arrow :: (nl₂ ++ (us ++ (nl₃ ++ comma :: (nl₄ ++ (vs' ++ after)))))) key :=
      hkey.before rfl ((((hcalmer.append us).append nl₂).append [arrow]).append nl₁) trivial
    have hvalue : Reads context (.expression 0) us
        (nl₃ ++ comma :: (nl₄ ++ (vs' ++ after))) value := hvalue.before rfl hcalmer trivial
    have hnewline := (hvs.behind after).headKind ▸ hnewline
    exact (Reads.moreEntries hkey hnl₁ harrow hnl₂ hvalue hnl₃ hcomma hnl₄ hnewline hvs').of_eq
      (by simp)

end

theorem arguments {args : List (Expr σ)} (hopener : opener.kind = .symbol .openParen)
    (hcloser : closer.kind = .symbol .closeParen)
    (ih : Exchanges context (.elements .argumentList) ts (closer :: after) args) :
    Exchanges context .arguments (opener :: (ts ++ [closer])) after args := by
  refine ih.within rfl (fun _ hin => hin) [opener] [closer] rfl rfl fun ts' _ hts => ?_
  exact (Reads.arguments hopener hts hcloser).of_eq (by simp)

theorem bareArguments {first : Expr σ} {rest : List (Expr σ)}
    (hfirst : Reads context (.expression 0) ts (us ++ after) first)
    (hrest : Reads context .moreBareArguments us after rest)
    (ihfirst : Exchanges context (.expression 0) ts (us ++ after) first)
    (ihrest : Exchanges context .moreBareArguments us after rest) :
    Exchanges context .bareArguments (ts ++ us) after (first :: rest) := by
  intro m hm hin
  obtain hin | hin := in_cons.1 hin
  · have h := ihfirst.all rfl hm (hm.in_expr hin)
    refine .inr (h.lift [] us rfl rfl fun ts' _ hts => ?_)
    exact (Reads.bareArguments hts hrest).of_eq (by simp)
  · have h := ihrest.all rfl hm hin
    refine .inr (h.lift ts [] (by simp) rfl fun us' hus hus' => ?_)
    have hfirst := hfirst.before rfl (hus.calmer after) trivial
    exact (Reads.bareArguments hfirst hus').of_eq (by simp)

theorem moreArguments {first : Expr σ} {rest : List (Expr σ)}
    (hcomma : comma.kind = .symbol .comma) (hnl : Newlines nl)
    (hfirst : Reads context (.expression 0) ts (us ++ after) first)
    (hrest : Reads context .moreBareArguments us after rest)
    (ihfirst : Exchanges context (.expression 0) ts (us ++ after) first)
    (ihrest : Exchanges context .moreBareArguments us after rest) :
    Exchanges context .moreBareArguments (comma :: (nl ++ (ts ++ us))) after (first :: rest) := by
  intro m hm hin
  obtain hin | hin := in_cons.1 hin
  · have h := ihfirst.all rfl hm (hm.in_expr hin)
    refine .inr (h.lift (comma :: nl) us rfl rfl fun ts' _ hts => ?_)
    exact (Reads.moreArguments hcomma hnl hts hrest).of_eq (by simp)
  · have h := ihrest.all rfl hm hin
    refine .inr (h.lift (comma :: (nl ++ ts)) [] (by simp) rfl fun us' hus hus' => ?_)
    have hfirst := hfirst.before rfl (hus.calmer after) trivial
    exact (Reads.moreArguments hcomma hnl hfirst hus').of_eq (by simp)

/-! ## calls -/

theorem call (ht : t.kind = .name name)
    (ih : Exchanges context (.callOf ⟨name, t.span⟩) ts after whole) :
    Exchanges context .callOrWord (t :: ts) after whole := by
  refine ih.within rfl (fun _ hin => hin) [t] [] (by simp) rfl fun ts' _ hts => ?_
  exact (Reads.call ht hts).of_eq (by simp)

/-- The part is in the arguments or in the lambda. -/
theorem callOf {callee : Ident σ} {args : List (Expr σ)} {lambda : Option (Lambda σ)}
    (hargs : Reads context .arguments ts (us ++ after) args)
    (hlambda : Reads context .optionalLambda us after lambda)
    (ihargs : Exchanges context .arguments ts (us ++ after) args)
    (ihlambda : Exchanges context .optionalLambda us after lambda) :
    Exchanges context (.callOf callee) (ts ++ us) after
      (.call (through callee.span (ts ++ us)) callee args lambda) := by
  intro m hm hin
  obtain hin | hin := hm.in_call hin
  · refine .inr ((ihargs.all rfl hm hin).lift [] us rfl rfl fun ts' hts hts' => ?_)
    have hcall : Reads context (.callOf callee) (ts' ++ us) after _ := .callOf hts' hlambda
    rwa [(hts.behind us).through] at hcall
  · refine .inr ((ihlambda.all rfl hm hin).lift ts [] (by simp) rfl fun us' hus hus' => ?_)
    have hargs := hargs.before rfl (hus.calmer after) trivial
    have hcall : Reads context (.callOf callee) (ts ++ us') after _ := .callOf hargs hus'
    rw [(hus.front ts).through] at hcall
    exact hcall.of_eq (by simp)

theorem someLambda {lambda : Lambda σ} (ih : Exchanges context .lambda ts after lambda) :
    Exchanges context .optionalLambda ts after (some lambda) := by
  have hparts {m : Subtree σ} (hm : m.IsClosed) (hin : m.In [.lambda lambda]) :
      m.In [.block lambda.body] :=
    in_cons.2 (.inl (hm.in_lambda ((in_cons.1 hin).resolve_right not_in_nil)))
  refine ih.within rfl hparts [] [] (by simp) rfl fun ts' _ hts => ?_
  exact (Reads.someLambda hts).of_eq (by simp)

theorem lambdaNoList {lambda : Lambda σ} (ht : t.kind = .symbol .pipePipe)
    (ih : Exchanges context (.lambdaBody t.span []) ts after lambda) :
    Exchanges context .lambda (t :: ts) after lambda := by
  refine ih.within rfl (fun _ hin => hin) [t] [] (by simp) rfl fun ts' _ hts => ?_
  exact (Reads.lambdaNoList ht hts).of_eq (by simp)

theorem lambda {params : List (Ident σ)} {lambda : Lambda σ}
    (hopener : opener.kind = .symbol .pipe)
    (hparams : Reads context (.parameters opener.span) ts (closer :: (us ++ after)) params)
    (hcloser : closer.kind = .symbol .pipe)
    (ih : Exchanges context (.lambdaBody opener.span params) us after lambda) :
    Exchanges context .lambda (opener :: (ts ++ closer :: us)) after lambda := by
  refine ih.within rfl (fun _ hin => hin) (opener :: (ts ++ [closer])) [] (by simp) rfl
    fun us' hus hus' => ?_
  have hparams : Reads context (.parameters opener.span) ts (closer :: (us' ++ after)) params :=
    hparams.before rfl ((hus.calmer after).append [closer]) fun _ => rfl
  exact (Reads.lambda hopener hparams hcloser hus').of_eq (by simp)

theorem lambdaBody {span : σ} {params : List (Ident σ)} {body : Block σ} (hnl : Newlines nl)
    (hbody : Reads context (.block .lambdaBody) ts after body)
    (ih : Exchanges context (.block .lambdaBody) ts after body) :
    Exchanges context (.lambdaBody span params) (nl ++ ts) after
      ⟨through span ts, params, body⟩ := by
  intro m hm hin
  have hin := (in_cons.1 hin).resolve_right not_in_nil
  have h := hbody.exchanges_block rfl ih hm hin
  refine .inr (h.lift nl [] (by simp) rfl fun ts' hts hts' => ?_)
  have hlambda : Reads context (.lambdaBody span params) _ _ _ := .lambdaBody hnl hts'
  rw [hts.through] at hlambda
  exact hlambda.of_eq (by simp)

/-! ## statements -/

/-- The part is the block itself, or in one of its statements. -/
theorem block {construct : Construct} {stmts : List (Stmt σ)}
    (hopener : opener.kind = .symbol .openBrace) (hcloser : closer.kind = .symbol construct.closer)
    (ih : Exchanges context .statements ts (closer :: after) stmts) :
    Exchanges context (.block construct) (opener :: (ts ++ [closer])) after
      ⟨Location.merge opener.span closer.span, stmts⟩ := by
  refine ih.within rfl (fun _ hin => hin) [opener] [closer] rfl rfl fun ts' _ hts => ?_
  exact (Reads.block hopener hts hcloser).of_eq (by simp)

/-- The part is in the first statement or in the others. -/
theorem moreStatements {first : Stmt σ} {rest : List (Stmt σ)} {seps : List (Token σ)}
    (hseps : Separators seps) (hfirst : Reads context .statement ts (us ++ after) first)
    (hcomma : headKind (us ++ after) ≠ some (.symbol .comma))
    (hrest : Reads context .statements us after rest)
    (ihfirst : Exchanges context .statement ts (us ++ after) first)
    (ihrest : Exchanges context .statements us after rest) :
    Exchanges context .statements (seps ++ (ts ++ us)) after (first :: rest) := by
  intro m hm hin
  obtain hin | hin := in_cons.1 hin
  · have h := hfirst.exchanges_statement ihfirst hm hin
    refine .inr (h.lift seps us rfl rfl fun ts' _ hts => ?_)
    exact .moreStatements hseps hts hcomma hrest
  · have h := ihrest.all rfl hm hin
    refine .inr (h.lift (seps ++ ts) [] (by simp) rfl fun us' hus hus' => ?_)
    have hfirst := hfirst.before rfl (hus.calmer after) trivial
    have hcomma := (hus.behind after).headKind ▸ hcomma
    exact (Reads.moreStatements hseps hfirst hcomma hus').of_eq (by simp)

theorem branching {sense : Sense} {stmt : Stmt σ}
    (ht : t.kind = .keyword .ifWord ∧ sense = .ifTrue ∨
      t.kind = .keyword .unlessWord ∧ sense = .unlessTrue)
    (ih : Exchanges context (.conditional sense) (t :: ts) after stmt) :
    Exchanges context .statement (t :: ts) after stmt := by
  refine ih.within rfl (fun _ hin => hin) [] [] (by simp) rfl fun ts' hts hts' => ?_
  obtain ⟨us, rfl⟩ := hts.exists_cons
  exact (Reads.branching ht hts').of_eq (by simp)

theorem invocation {stmt : Stmt σ} (ih : Exchanges context .callable ts after (.statement stmt)) :
    Exchanges context .statement ts after stmt := by
  refine ih.within rfl (fun _ hin => hin) [] [] (by simp) rfl fun ts' _ hts => ?_
  exact (Reads.invocation hts).of_eq (by simp)

/-- The part is in the value of the name, or in what makes a statement of it. -/
theorem callableValue {stmt : Stmt σ}
    (hcallable : Reads context .callable ts (us ++ after) (.value whole))
    (hstmt : Reads context (.valueStatement whole) us after stmt)
    (ih : Exchanges context .callable ts (us ++ after) (.value whole))
    (ihstmt : Exchanges context (.valueStatement whole) us after stmt) :
    Exchanges context .statement (ts ++ us) after stmt := by
  refine .follow ih ihstmt rfl rfl rfl [] rfl (fun ts' _ hts => ?_) fun us' hus hus' => ?_
  · exact (Reads.callableValue hts hstmt).of_eq (by simp)
  · have hcallable := hcallable.before rfl (hus.calmer after)
      fun _ => (hus.behind after).headKind
    exact (Reads.callableValue hcallable hus').of_eq (by simp)

theorem value {stmt : Stmt σ} (hname : ∀ name, headKind ts ≠ some (.name name))
    (hexpr : Reads context (.expression 0) ts (us ++ after) whole)
    (hstmt : Reads context (.valueStatement whole) us after stmt)
    (ih : Exchanges context (.expression 0) ts (us ++ after) whole)
    (ihstmt : Exchanges context (.valueStatement whole) us after stmt) :
    Exchanges context .statement (ts ++ us) after stmt := by
  refine .follow ih ihstmt rfl rfl rfl [] rfl (fun ts' hts hts' => ?_) fun us' hus hus' => ?_
  · have hname : ∀ name, headKind ts' ≠ some (.name name) := by rwa [hts.headKind]
    exact (Reads.value hname hts' hstmt).of_eq (by simp)
  · have hexpr := hexpr.before rfl (hus.calmer after) trivial
    exact (Reads.value hname hexpr hus').of_eq (by simp)

theorem assignment (ht : t.kind = .symbol .assign) (htarget : target.isAssignable = true)
    (hnl : Newlines nl) (ih : Exchanges context (.expression 0) ts after whole) :
    Exchanges context (.valueStatement target) (t :: (nl ++ ts)) after
      (.assign (Location.merge target.span whole.span) target whole) := by
  intro m hm hin
  obtain hin | hin := in_cons.1 hin
  · exact .inl (hm.in_expr hin)
  · have h := ih.all rfl hm (hm.in_single hin)
    refine .inr (h.lift (t :: nl) [] (by simp) rfl fun ts' _ hts => ?_)
    exact (Reads.assignment ht htarget hnl hts).of_eq (by simp)

/-- The part is in the condition, in its branch or in the alternative. -/
theorem conditional {sense : Sense} {condition : Expr σ} {thenBranch : Block σ}
    {elseBranch : Option (Block σ)} (ht : opensCondition sense t.kind = true)
    (hcondition : Reads context (.expression 0) ts (us ++ (vs ++ after)) condition)
    (hthen : Reads context (.block (Grammar.branchConstruct sense)) us (vs ++ after) thenBranch)
    (helse : Reads context (.alternative sense) vs after elseBranch)
    (ihcondition : Exchanges context (.expression 0) ts (us ++ (vs ++ after)) condition)
    (ihthen : Exchanges context (.block (Grammar.branchConstruct sense)) us (vs ++ after)
      thenBranch)
    (ihelse : Exchanges context (.alternative sense) vs after elseBranch) :
    Exchanges context (.conditional sense) (t :: (ts ++ (us ++ vs))) after
      (.conditional (through t.span (ts ++ (us ++ vs))) sense condition thenBranch
        elseBranch) := by
  -- the place of the whole is all that the rule keeps of the tokens
  have hwhole {ts' us' vs' : List (Token σ)}
      (hswapped : Swapped (ts ++ (us ++ vs)) (ts' ++ (us' ++ vs')))
      (hcondition : Reads context (.expression 0) ts' (us' ++ (vs' ++ after)) condition)
      (hthen : Reads context (.block (Grammar.branchConstruct sense)) us' (vs' ++ after)
        thenBranch)
      (helse : Reads context (.alternative sense) vs' after elseBranch) :
      Reads context (.conditional sense) (t :: (ts' ++ (us' ++ vs'))) after
        (.conditional (through t.span (ts ++ (us ++ vs))) sense condition thenBranch
          elseBranch) := by
    rw [← hswapped.through]
    exact .conditional ht hcondition hthen helse
  intro m hm hin
  obtain hin | hin := in_cons.1 hin
  · have h := ihcondition.all rfl hm (hm.in_expr hin)
    refine .inr (h.lift [t] (us ++ vs) rfl (by simp) fun ts' hts hts' => ?_)
    exact (hwhole (hts.behind _) hts' hthen helse).of_eq (by simp)
  obtain hin | hin := in_cons.1 hin
  · have h := hthen.exchanges_block (Grammar.closer_branchConstruct sense) ihthen hm hin
    refine .inr (h.lift (t :: ts) vs rfl rfl fun us' hus hus' => ?_)
    have hcondition := hcondition.before rfl (hus.calmer (vs ++ after)) trivial
    exact (hwhole ((hus.behind vs).front ts) hcondition hus' helse).of_eq (by simp)
  · have h := ihelse.all rfl hm hin
    refine .inr (h.lift (t :: (ts ++ us)) [] (by simp) rfl fun vs' hvs hvs' => ?_)
    have hcondition := hcondition.before rfl ((hvs.calmer after).append us) trivial
    have hthen := hthen.before rfl (hvs.calmer after) trivial
    exact (hwhole ((hvs.front us).front ts) hcondition hthen hvs').of_eq (by simp)

/-- The part is the conditional that comes after `elsif`, its block, or in it. -/
theorem elsifAlternative {nested : Stmt σ} (hnl : Newlines nl)
    (ht : t.kind = .keyword .elsifWord)
    (hnested : Reads context (.conditional .ifTrue) (t :: ts) after nested)
    (ih : Exchanges context (.conditional .ifTrue) (t :: ts) after nested) :
    Exchanges context (.alternative .ifTrue) (nl ++ t :: ts) after
      (some ⟨nested.span, [nested]⟩) := by
  intro m hm hin
  have hin := (in_cons.1 hin).resolve_right not_in_nil
  have h := hnested.exchanges_branch ht ih hm hin
  refine .inr (h.lift nl [] (by simp) rfl fun ts' hts hts' => ?_)
  obtain ⟨us, rfl⟩ := hts.exists_cons
  exact (Reads.elsifAlternative hnl ht hts').of_eq (by simp)

/-- The part is in the block behind `else`. -/
theorem elseAlternative {sense : Sense} {body : Block σ} (hnl : Newlines nl)
    (ht : t.kind = .keyword .elseWord) (hbody : Reads context (.block .elseBody) ts after body)
    (ih : Exchanges context (.block .elseBody) ts after body) :
    Exchanges context (.alternative sense) (nl ++ t :: ts) after (some body) := by
  intro m hm hin
  have hin := (in_cons.1 hin).resolve_right not_in_nil
  have h := hbody.exchanges_block rfl ih hm hin
  refine .inr (h.lift (nl ++ [t]) [] (by simp) rfl fun ts' _ hts => ?_)
  exact (Reads.elseAlternative hnl ht hts).of_eq (by simp)

/-- The part is in the call, or in what goes on after it. -/
theorem wholeCall {call : Expr σ} {span : σ} {callee : Ident σ} {args : List (Expr σ)}
    {lambda : Option (Lambda σ)} (ht : t.kind = .name name)
    (hcall : Reads context (.callOf ⟨name, t.span⟩) ts (us ++ after) call)
    (hrest : Reads context (.continued call) us after (.call span callee args lambda))
    (hafter : headKind after ≠ some (.symbol .assign))
    (ihcall : Exchanges context (.callOf ⟨name, t.span⟩) ts (us ++ after) call)
    (ihrest : Exchanges context (.continued call) us after (.call span callee args lambda)) :
    Exchanges context .callable (t :: (ts ++ us)) after
      (.statement (.invoke span callee args lambda)) := by
  refine .follow ihcall ihrest rfl rfl rfl [t] rfl (fun ts' _ hts => ?_) fun us' hus hus' => ?_
  · exact (Reads.wholeCall ht hts hrest hafter).of_eq (by simp)
  · have hcall := hcall.before rfl (hus.calmer after) trivial
    exact (Reads.wholeCall ht hcall hus' hafter).of_eq (by simp)

theorem callValue {call : Expr σ} (ht : t.kind = .name name)
    (hcall : Reads context (.callOf ⟨name, t.span⟩) ts (us ++ after) call)
    (hrest : Reads context (.continued call) us after whole)
    (hwhole : (∃ span callee args lambda, whole = .call span callee args lambda) →
      headKind after = some (.symbol .assign))
    (ihcall : Exchanges context (.callOf ⟨name, t.span⟩) ts (us ++ after) call)
    (ihrest : Exchanges context (.continued call) us after whole) :
    Exchanges context .callable (t :: (ts ++ us)) after (.value whole) := by
  refine .follow ihcall ihrest rfl rfl rfl [t] rfl (fun ts' _ hts => ?_) fun us' hus hus' => ?_
  · exact (Reads.callValue ht hts hrest hwhole).of_eq (by simp)
  · have hcall := hcall.before rfl (hus.calmer after) trivial
    exact (Reads.callValue ht hcall hus' hwhole).of_eq (by simp)

theorem bareCall {args : List (Expr σ)} (ht : t.kind = .name name)
    (hbegins :
      Grammar.beginsArgument (headKind (ts ++ after)) (headTouches (ts ++ after)) = true)
    (hcount : args.length ≤ 1 ∨ name ∈ context.calls)
    (ih : Exchanges context .bareArguments ts after args) :
    Exchanges context .callable (t :: ts) after
      (.statement (.invoke (through t.span ts) ⟨name, t.span⟩ args none)) := by
  refine ih.within rfl (fun hm hin => (hm.in_call hin).resolve_right not_in_nil) [t] []
    (by simp) rfl fun ts' hts hts' => ?_
  have hbehind := hts.behind after
  rw [← hbehind.headKind, ← hbehind.headTouches] at hbegins
  have hcall := Reads.bareCall ht hbegins hts' hcount
  rw [hts.through] at hcall
  exact hcall.of_eq (by simp)

theorem wordValue (ht : t.kind = .name name)
    (hparen : headKind (ts ++ after) ≠ some (.symbol .openParen))
    (hbegins :
      Grammar.beginsArgument (headKind (ts ++ after)) (headTouches (ts ++ after)) = false)
    (ih : Exchanges context (.continued (.word t.span name)) ts after whole) :
    Exchanges context .callable (t :: ts) after (.value whole) := by
  refine ih.within rfl (fun _ hin => hin) [t] [] (by simp) rfl fun ts' hts hts' => ?_
  have hbehind := hts.behind after
  rw [← hbehind.headKind] at hparen hbegins
  rw [← hbehind.headTouches] at hbegins
  exact (Reads.wordValue ht hparen hbegins hts').of_eq (by simp)

theorem continued {first : Expr σ} (hleft : Reads context (.suffixes first) ts (us ++ after) left)
    (hrest : Reads context (.operators 0 left) us after whole)
    (ihleft : Exchanges context (.suffixes first) ts (us ++ after) left)
    (ihrest : Exchanges context (.operators 0 left) us after whole) :
    Exchanges context (.continued first) (ts ++ us) after whole := by
  refine .follow ihleft ihrest rfl rfl rfl [] rfl (fun ts' _ hts => ?_) fun us' hus hus' => ?_
  · exact (Reads.continued hts hrest).of_eq (by simp)
  · have hleft := hleft.before rfl (hus.calmer after) trivial
    exact (Reads.continued hleft hus').of_eq (by simp)

theorem program {stmts : List (Stmt σ)} (hne : stmts ≠ [])
    (ih : Exchanges context .statements ts [] stmts) :
    Exchanges context .program ts []
      ⟨⟨through ((Cursor.start ts).place context.finish) ts, stmts⟩⟩ := by
  refine ih.within rfl (fun _ hin => hin) [] [] (by simp) rfl fun ts' hts hts' => ?_
  have hprogram := Reads.program hts' hne
  rw [hts.place, hts.through] at hprogram
  exact hprogram.of_eq (by simp)

end Phrase.Exchanges

theorem Reads.exchanges {p : Phrase σ} {ts after : List (Token σ)} {v : p.Value}
    (h : Reads context p ts after v) : p.Exchanges context ts after v := by
  induction h with
  | noParameters | lastParameter | moreParameters => exact .nil rfl
  | expression hleft hrest ihleft ihrest => exact .expression hleft hrest ihleft ihrest
  | noOperator | noSuffix => exact fun _ _ hin => .inl hin
  | operator ht hlevel hnl hright hrest ihright ihrest =>
    exact .operator ht hlevel hnl hright hrest ihright ihrest
  | sign ht _ ih => exact .sign ht ih
  | operand hfirst hrest ihfirst ihrest => exact .operand hfirst hrest ihfirst ihrest
  | method hdot ht hargs hlambda hrest ihargs ihlambda ihrest =>
    exact .method hdot ht hargs hlambda hrest ihargs ihlambda ihrest
  | access hopener htouching hkeys hcloser hne hrest ihkeys ihrest =>
    exact .access hopener htouching hkeys hcloser hne hrest ihkeys ihrest
  | var | reference | literal => exact .nil rfl
  | name _ ih =>
    exact ih.within rfl (fun _ hin => hin) [] [] (by simp) rfl fun _ _ hts =>
      (Reads.name hts).of_eq (by simp)
  | array hopener _ hcloser ih => exact .array hopener hcloser ih
  | hash hopener hnl _ hcloser ih => exact .hash hopener hnl hcloser ih
  | parentheses hopener hnl _ hnl' hcloser ih => exact .parentheses hopener hnl hnl' hcloser ih
  | noElements => exact .nil rfl
  | lastElement hnl _ hnl' hnewline hcomma ih => exact .lastElement hnl hnl' hnewline hcomma ih
  | moreElements hnl hitem hnl' hcomma hrest ih ihrest =>
    exact .moreElements hnl hitem hnl' hcomma hrest ih ihrest
  | noEntries => exact .nil rfl
  | lastEntry hkey hnl₁ harrow hnl₂ hvalue hnl₃ hnewline hcomma ihkey ihvalue =>
    exact .lastEntry hkey hnl₁ harrow hnl₂ hvalue hnl₃ hnewline hcomma ihkey ihvalue
  | moreEntries hkey hnl₁ harrow hnl₂ hvalue hnl₃ hcomma hnl₄ hnewline hrest ihkey ihvalue
      ihrest =>
    exact .moreEntries hkey hnl₁ harrow hnl₂ hvalue hnl₃ hcomma hnl₄ hnewline hrest ihkey ihvalue
      ihrest
  | arguments hopener _ hcloser ih => exact .arguments hopener hcloser ih
  | noArguments => exact .nil rfl
  | someArguments _ ih =>
    exact ih.within rfl (fun _ hin => hin) [] [] (by simp) rfl fun _ _ hts =>
      (Reads.someArguments hts).of_eq (by simp)
  | bareArguments hfirst hrest ihfirst ihrest =>
    exact .bareArguments hfirst hrest ihfirst ihrest
  | noMoreArguments => exact .nil rfl
  | moreArguments hcomma hnl hfirst hrest ihfirst ihrest =>
    exact .moreArguments hcomma hnl hfirst hrest ihfirst ihrest
  | word => exact .nil rfl
  | call ht _ ih => exact .call ht ih
  | callOf hargs hlambda ihargs ihlambda => exact .callOf hargs hlambda ihargs ihlambda
  | noLambda => exact .nil rfl
  | someLambda _ ih => exact .someLambda ih
  | lambdaNoList ht _ ih => exact .lambdaNoList ht ih
  | lambda hopener hparams hcloser _ _ ih => exact .lambda hopener hparams hcloser ih
  | lambdaBody hnl hbody ih => exact .lambdaBody hnl hbody ih
  | block hopener _ hcloser ih => exact .block hopener hcloser ih
  | noStatements => exact .nil rfl
  | moreStatements hseps hfirst hcomma hrest ihfirst ihrest =>
    exact .moreStatements hseps hfirst hcomma hrest ihfirst ihrest
  | branching ht _ ih => exact .branching ht ih
  | invocation _ ih => exact .invocation ih
  | callableValue hcallable hstmt ih ihstmt => exact .callableValue hcallable hstmt ih ihstmt
  | value hname hexpr hstmt ih ihstmt => exact .value hname hexpr hstmt ih ihstmt
  | assignment ht htarget hnl _ ih => exact .assignment ht htarget hnl ih
  | noAssignment => exact fun _ hm hin => .inl (hm.in_single hin)
  | conditional ht hcondition hthen helse ihcondition ihthen ihelse =>
    exact .conditional ht hcondition hthen helse ihcondition ihthen ihelse
  | noAlternative => exact .nil rfl
  | elsifAlternative hnl ht hnested ih => exact .elsifAlternative hnl ht hnested ih
  | elseAlternative hnl ht hbody ih => exact .elseAlternative hnl ht hbody ih
  | wholeCall ht hcall hrest hafter ihcall ihrest =>
    exact .wholeCall ht hcall hrest hafter ihcall ihrest
  | callValue ht hcall hrest hwhole ihcall ihrest =>
    exact .callValue ht hcall hrest hwhole ihcall ihrest
  | bareCall ht hbegins _ hcount ih => exact .bareCall ht hbegins hcount ih
  | wordValue ht hparen hbegins _ ih => exact .wordValue ht hparen hbegins ih
  | continued hleft hrest ihleft ihrest => exact .continued hleft hrest ihleft ihrest
  | noProgram => exact .nil rfl
  | program _ hne ih => exact .program hne ih

/-! ## source units -/

section

variable {context : Context Span} {m : Subtree Span} {t : Token Span}
  {before ts us rest after : List (Token Span)}

/-- A part covers the tokens on which it stands. -/
theorem StandsOn.covers (h : StandsOn context m ts after) (hs : Sorted ts) : Covers m.span ts := by
  cases h with
  | stmt h => exact h.extends hs
  | block hbraces h =>
    cases h with
    | block => exact .brackets hs
  | branch ht h hm =>
    have hcovers : Covers (Stmt.span _) _ := h.extends hs
    obtain rfl | rfl := hm
    · exact hcovers
    · exact hcovers

/-- A statement or a body of a source unit stands on the tokens that its span covers, and may
be exchanged there. -/
theorem Reads.exchange {p : Program Span}
    (h : Reads context .program (before ++ t :: (us ++ rest)) [] p)
    (hs : Sorted (before ++ t :: (us ++ rest))) (hm : m.IsClosed) (hin : p.Has m)
    (hcovers : Covers m.span (t :: us)) (ht : t.kind ≠ .keyword .elsifWord) :
    StandsOn context m (t :: us) rest ∧ ∀ us', lastPlace (t :: us') = lastPlace (t :: us) →
      StandsOn context m (t :: us') rest →
      Reads context .program (before ++ t :: (us' ++ rest)) [] p := by
  have hparts : m.In (p.body.stmts.map .stmt) := by
    obtain ⟨s, hmem, hcontains⟩ := hin
    exact ⟨.stmt s, List.mem_map_of_mem hmem, hcontains⟩
  obtain ⟨gap, u, vs, rest', heq, hstands, hexchange⟩ :=
    h.exchanges.all rfl hm hparts
  have heq : before ++ ((t :: us) ++ rest) = gap ++ ((u :: vs) ++ rest') := heq
  have hrun : Sorted ((u :: vs) ++ rest') := Sorted.right (heq ▸ hs)
  obtain ⟨rfl, hus, rfl⟩ := Covers.run_unique hs heq hcovers (hstands.covers hrun.left)
  obtain ⟨rfl, rfl⟩ := List.cons.inj hus
  rw [List.append_nil] at hstands hexchange
  exact ⟨hstands, hexchange ht⟩

end

end CallGrammar
