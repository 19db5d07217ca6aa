import CallGrammar.Proofs.Reading

/-!
# CallGrammar.Proofs.Reading.Follow

A derivation before other tokens.  Of the tokens after a phrase the rules mostly ask that
they do not continue it; `Calmer after after'` says that `after'` continue nothing that
`after` do not, and then a phrase that ends before `after` ends before `after'` too
(`Reads.before`).  The few rules that ask for more are listed in `Phrase.Accepts`.

Two uses: a phrase is the same with fewer tokens after it, or with none (`Reads.truncate`),
and the same with a line break after them (`Reading.Continues`).
-/

namespace CallGrammar

variable {σ : Type}

/-! ## tokens that continue less -/

/-- The kinds that end a statement, whatever it is; no phrase goes on with one of them, but
that some go on past line breaks. -/
def Kind.endsStatement : Kind → Bool
  | .newline | .symbol .semicolon | .symbol .closeBrace => true
  | _ => false

/-- The tokens `after'` continue no phrase that `after` do not: they begin with the same
kind, with one that ends statements or not at all, and after line breaks no other branch of a
conditional comes next. -/
structure Calmer (after after' : List (Token σ)) : Prop where
  head : ∀ k, headKind after' = some k → headKind after = some k ∨ k.endsStatement = true
  touches : headKind after' = some (.symbol .openBracket) → headTouches after' = headTouches after
  branch : ∀ word, word = .elsifWord ∨ word = .elseWord →
    headKindPastNewlines after' = some (.keyword word) →
    headKindPastNewlines after = some (.keyword word)

/-- What ends a statement is no operator. -/
theorem Kind.ofKind?_of_endsStatement {k : Kind} (h : k.endsStatement = true) :
    BinaryOp.ofKind? k = none := by
  unfold endsStatement at h
  split at h <;> first | rfl | cases h

/-- What ends a statement begins no argument. -/
theorem Kind.beginsArgument_of_endsStatement {k : Kind} (h : k.endsStatement = true)
    (touching : Bool) : Grammar.beginsArgument (some k) touching = false := by
  unfold endsStatement at h
  split at h <;> first | rfl | cases h

theorem headKindPastNewlines_append_of_newlines {nl : List (Token σ)} (hnl : Newlines nl)
    (ts : List (Token σ)) : headKindPastNewlines (nl ++ ts) = headKindPastNewlines ts := by
  induction nl with
  | nil => rfl
  | cons t nl ih =>
    have ht : (t.kind == .newline) = true := hnl.head
    have hskip : headKindPastNewlines (t :: (nl ++ ts)) = headKindPastNewlines (nl ++ ts) := by
      simp [headKindPastNewlines, ht]
    exact hskip.trans (ih hnl.tail)

/-- Tokens are line breaks only, or begin after some with another token. -/
theorem newlines_or_cons (ts : List (Token σ)) :
    Newlines ts ∨ ∃ nl t us, ts = nl ++ t :: us ∧ Newlines nl ∧ t.kind ≠ .newline := by
  induction ts with
  | nil => exact .inl nofun
  | cons t ts ih =>
    by_cases ht : t.kind = .newline
    · have hbeq : (t.kind == .newline) = true := beq_iff_eq.2 ht
      obtain hall | ⟨nl, u, us, rfl, hnl, hu⟩ := ih
      · exact .inl (.cons hbeq hall)
      · exact .inr ⟨t :: nl, u, us, rfl, .cons hbeq hnl, hu⟩
    · exact .inr ⟨[], t, ts, rfl, nofun, ht⟩

/-- Behind a token that is no line break nothing is seen. -/
theorem headKindPastNewlines_append_cons {nl : List (Token σ)} {t : Token σ} (hnl : Newlines nl)
    (ht : t.kind ≠ .newline) (ts : List (Token σ)) :
    headKindPastNewlines (nl ++ t :: ts) = some t.kind := by
  rw [headKindPastNewlines_append_of_newlines hnl]
  simp [headKindPastNewlines, headKind, ht]

namespace Calmer

variable {after after' rest : List (Token σ)} {k : Kind}

/-- More tokens in front change nothing. -/
theorem append (h : Calmer after after') (ts : List (Token σ)) :
    Calmer (ts ++ after) (ts ++ after') := by
  cases ts with
  | nil => exact h
  | cons t ts =>
    refine ⟨fun _ hk => .inl hk, fun _ => rfl, fun word hword hk => ?_⟩
    obtain hall | ⟨nl, u, us, heq, hnl, hu⟩ := newlines_or_cons (t :: ts)
    · rw [headKindPastNewlines_append_of_newlines hall] at hk ⊢
      exact h.branch word hword hk
    · rw [heq, List.append_assoc, List.cons_append,
        headKindPastNewlines_append_cons hnl hu] at hk ⊢
      exact hk

/-- Fewer tokens continue less. -/
theorem take (after rest : List (Token σ)) : Calmer (after ++ rest) after := by
  cases after with
  | nil => exact ⟨nofun, nofun, fun _ _ hk => by cases hk⟩
  | cons t ts =>
    refine ⟨fun _ hk => .inl hk, fun _ => rfl, fun word _ hk => ?_⟩
    obtain hall | ⟨nl, u, us, heq, hnl, hu⟩ := newlines_or_cons (t :: ts)
    · rw [← List.append_nil (t :: ts), headKindPastNewlines_append_of_newlines hall] at hk
      cases hk
    · rw [heq] at hk ⊢
      rw [List.append_assoc, List.cons_append]
      rw [headKindPastNewlines_append_cons hnl hu] at hk ⊢
      exact hk

/-- What comes behind a token that is no line break is not seen before that token. -/
theorem of_cons {t : Token σ} (ht : t.kind ≠ .newline) (us us' : List (Token σ)) :
    Calmer (t :: us) (t :: us') := by
  refine ⟨fun k hk => .inl hk, fun _ => rfl, fun word _ hk => ?_⟩
  have hhead := @headKindPastNewlines_append_cons σ [] t nofun ht
  rw [← hk]
  exact (hhead us).trans (hhead us').symm

/-- Nothing goes on with the end of a block. -/
theorem of_closeBrace {closer : Token σ} (hcloser : closer.kind = .symbol .closeBrace)
    (after rest : List (Token σ)) : Calmer after (closer :: rest) where
  head k hk := by
    obtain rfl : closer.kind = k := Option.some.inj hk
    exact .inr (by rw [hcloser]; rfl)
  touches hk := by
    rw [headKind_cons, hcloser] at hk
    cases hk
  branch word _ hk := by
    have hhead := @headKindPastNewlines_append_cons σ [] closer nofun (by rw [hcloser]; nofun)
    have hword := (hhead rest).symm.trans hk
    rw [hcloser] at hword
    cases hword

/-- A kind that ends no statement comes next only if it came next before. -/
theorem head_ne (h : Calmer after after') (hafter : headKind after ≠ some k)
    (hk : ¬ k.endsStatement = true) : headKind after' ≠ some k :=
  fun hk' => (h.head k hk').elim hafter hk

end Calmer

/-! ## phrases before calmer tokens -/

/-- What the rules of the phrase ask of other tokens after it, beyond that they are calmer. -/
def Phrase.Accepts : (p : Phrase σ) → (after after' : List (Token σ)) → p.Value → Prop
  | parameters _, after, after', _ =>
    headKind after = some (.symbol .pipe) → headKind after' = headKind after
  | elements _, after, after', _ | entries, after, after', _ | statements, after, after', _ =>
    after' = [] ∨ headKind after' = headKind after
  | callable, after, after', .value _ =>
    headKind after = some (.symbol .assign) → headKind after' = headKind after
  | program, _, _, _ => False
  | _, _, _, _ => True

/-- The first kind after a list is the one that was there before, if there is any. -/
theorem headKind_of_accepts {after after' : List (Token σ)} {k : Kind}
    (h : after' = [] ∨ headKind after' = headKind after) (hk : headKind after' = some k) :
    headKind after = some k := by
  obtain rfl | hsame := h
  · cases hk
  · exact hsame.symm.trans hk

/-- The tokens have the same first kind whatever comes after them, if they have one. -/
theorem headKind_append_or (ts : List (Token σ)) (after after' : List (Token σ)) :
    ts = [] ∨ headKind (ts ++ after') = headKind (ts ++ after) := by
  cases ts with
  | nil => exact .inl rfl
  | cons t ts => exact .inr rfl

variable [Location σ] {context context' : Context σ}

/-- Before all tokens that continue no more than `after`, the tokens are the phrase with this
value. -/
def Phrase.Stands (context : Context σ) (p : Phrase σ) (ts after : List (Token σ))
    (v : p.Value) : Prop :=
  ∀ after', Calmer after after' → p.Accepts after after' v → Reads context p ts after' v

namespace Phrase.Stands

variable {first left value expr call whole : Expr σ} {t opener closer arrow comma : Token σ}
  {name : String} {nl nl₁ nl₂ nl₃ nl₄ ts us vs after : List (Token σ)}

/-! ### rules of expressions -/

/-- A kind that ends statements is no operator, so where none of this level came next none
does. -/
theorem noOperator {floor : Nat}
    (hafter : ∀ op, (headKind after).bind BinaryOp.ofKind? = some op → op.level < floor) :
    Stands context (.operators floor left) [] after left := by
  intro after' hcalmer _
  refine .noOperator fun op hop => ?_
  obtain ⟨k, hk, hop⟩ := Option.bind_eq_some_iff.1 hop
  obtain hk | hends := hcalmer.head k hk
  · exact hafter op (by rw [hk]; exact hop)
  · rw [Kind.ofKind?_of_endsStatement hends] at hop
    cases hop

/-- A bracket that comes next touches what is before it only if the one that came next did. -/
theorem noSuffix (hdot : headKind after ≠ some (.symbol .dot))
    (hbracket : headKind after = some (.symbol .openBracket) → headTouches after = false) :
    Stands context (.suffixes first) [] after first := by
  intro after' hcalmer _
  refine .noSuffix (hcalmer.head_ne hdot nofun) fun hk => ?_
  obtain hk' | hk' := hcalmer.head _ hk
  · rw [hcalmer.touches hk]
    exact hbracket hk'
  · cases hk'

theorem method {dot : Token σ} {args : List (Expr σ)} {lambda : Option (Lambda σ)}
    (hdot : dot.kind = .symbol .dot) (ht : t.kind = .name name)
    (ihargs : Stands context .optionalArguments ts (us ++ (vs ++ after)) args)
    (ihlambda : Stands context .optionalLambda us (vs ++ after) lambda)
    (ihrest : Stands context (.suffixes (.method (through first.span (dot :: t :: (ts ++ us)))
      first ⟨name, t.span⟩ args lambda)) vs after value) :
    Stands context (.suffixes first) (dot :: t :: (ts ++ (us ++ vs))) after value := by
  intro after' hcalmer _
  have hvs := hcalmer.append vs
  exact .method hdot ht (ihargs _ (hvs.append us) trivial) (ihlambda _ hvs trivial)
    (ihrest _ hcalmer trivial)

theorem access {keys : List (Expr σ)} (hopener : opener.kind = .symbol .openBracket)
    (htouching : opener.touching = true) (hcloser : closer.kind = .symbol .closeBracket)
    (hne : keys ≠ [])
    (ihkeys : Stands context (.elements .access) ts (closer :: (us ++ after)) keys)
    (ihrest : Stands context
      (.suffixes (.access (Location.merge first.span closer.span) first keys)) us after value) :
    Stands context (.suffixes first) (opener :: (ts ++ closer :: us)) after value := by
  intro after' hcalmer _
  have hkeys := ihkeys _ (hcalmer.append (closer :: us)) (.inr rfl)
  exact .access hopener htouching hkeys hcloser hne (ihrest _ hcalmer trivial)

/-! ### rules of lists -/

/-- Behind the value no comma comes next, as none did. -/
theorem lastEntry {key : Expr σ} (hnl₁ : Newlines nl₁) (harrow : arrow.kind = .symbol .arrow)
    (hnl₂ : Newlines nl₂) (hnl₃ : Newlines nl₃) (hnewline : headKind after ≠ some .newline)
    (hcomma : headKind after ≠ some (.symbol .comma))
    (ihkey : Stands context (.expression 0) ts
      (nl₁ ++ arrow :: (nl₂ ++ (us ++ (nl₃ ++ after)))) key)
    (ihvalue : Stands context (.expression 0) us (nl₃ ++ after) value) :
    Stands context .entries (ts ++ (nl₁ ++ arrow :: (nl₂ ++ (us ++ nl₃)))) after
      [⟨key, value⟩] := by
  intro after' hcalmer haccepts
  have hrest := hcalmer.append nl₃
  have hkey := ihkey _ (hrest.append us |>.append nl₂ |>.append [arrow] |>.append nl₁) trivial
  exact .lastEntry hkey hnl₁ harrow hnl₂ (ihvalue _ hrest trivial) hnl₃
    (mt (headKind_of_accepts haccepts) hnewline) (mt (headKind_of_accepts haccepts) hcomma)

theorem moreEntries {key : Expr σ} {found : List (Entry σ)} (hnl₁ : Newlines nl₁)
    (harrow : arrow.kind = .symbol .arrow) (hnl₂ : Newlines nl₂) (hnl₃ : Newlines nl₃)
    (hcomma : comma.kind = .symbol .comma) (hnl₄ : Newlines nl₄)
    (hnewline : headKind (vs ++ after) ≠ some .newline)
    (ihkey : Stands context (.expression 0) ts
      (nl₁ ++ arrow :: (nl₂ ++ (us ++ (nl₃ ++ comma :: (nl₄ ++ (vs ++ after)))))) key)
    (ihvalue : Stands context (.expression 0) us
      (nl₃ ++ comma :: (nl₄ ++ (vs ++ after))) value)
    (ihrest : Stands context .entries vs after found) :
    Stands context .entries
      (ts ++ (nl₁ ++ arrow :: (nl₂ ++ (us ++ (nl₃ ++ comma :: (nl₄ ++ vs)))))) after
      (⟨key, value⟩ :: found) := by
  intro after' hcalmer haccepts
  have hrest := (hcalmer.append vs).append nl₄ |>.append [comma] |>.append nl₃
  have hkey := ihkey _ (hrest.append us |>.append nl₂ |>.append [arrow] |>.append nl₁) trivial
  refine .moreEntries hkey hnl₁ harrow hnl₂ (ihvalue _ hrest trivial) hnl₃ hcomma hnl₄ ?_
    (ihrest _ hcalmer haccepts)
  obtain rfl | hsame := headKind_append_or vs after after'
  · exact mt (headKind_of_accepts haccepts) hnewline
  · rwa [hsame]

/-- The bar that closes the parameters is still behind them. -/
theorem lambda {params : List (Ident σ)} {body : Lambda σ} (hopener : opener.kind = .symbol .pipe)
    (hcloser : closer.kind = .symbol .pipe)
    (ihparams : Stands context (.parameters opener.span) ts (closer :: (us ++ after)) params)
    (ihbody : Stands context (.lambdaBody opener.span params) us after body) :
    Stands context .lambda (opener :: (ts ++ closer :: us)) after body := by
  intro after' hcalmer _
  have hparams := ihparams _ (hcalmer.append (closer :: us)) fun _ => rfl
  exact .lambda hopener hparams hcloser (ihbody _ hcalmer trivial)

/-! ### rules of statements -/

/-- A comma comes next behind the first statement only if one did. -/
theorem moreStatements {stmt : Stmt σ} {stmts : List (Stmt σ)} {seps : List (Token σ)}
    (hseps : Separators seps) (hcomma : headKind (us ++ after) ≠ some (.symbol .comma))
    (ihfirst : Stands context .statement ts (us ++ after) stmt)
    (ihrest : Stands context .statements us after stmts) :
    Stands context .statements (seps ++ (ts ++ us)) after (stmt :: stmts) := by
  intro after' hcalmer haccepts
  have hus := hcalmer.append us
  exact .moreStatements hseps (ihfirst _ hus trivial) (hus.head_ne hcomma nofun)
    (ihrest _ hcalmer haccepts)

/-- A call before an assignment sign is no statement, as it is no target. -/
theorem callableValue {stmt : Stmt σ}
    (hstmt : Reads context' (.valueStatement expr) us after stmt)
    (ih : Stands context .callable ts (us ++ after) (.value expr))
    (ihstmt : Stands context (.valueStatement expr) us after stmt) :
    Stands context .statement (ts ++ us) after stmt := by
  intro after' hcalmer _
  refine .callableValue (ih _ (hcalmer.append us) fun hassign => ?_) (ihstmt _ hcalmer trivial)
  obtain rfl | hsame := headKind_append_or us after after'
  · cases hstmt with
    | noAssignment hafter => exact absurd hassign hafter
  · exact hsame

theorem conditional {sense : Sense} {condition : Expr σ} {thenBranch : Block σ}
    {elseBranch : Option (Block σ)} (ht : opensCondition sense t.kind = true)
    (ihcondition : Stands context (.expression 0) ts (us ++ (vs ++ after)) condition)
    (ihthen : Stands context (.block (Grammar.branchConstruct sense)) us (vs ++ after)
      thenBranch)
    (ihelse : Stands context (.alternative sense) vs after elseBranch) :
    Stands context (.conditional sense) (t :: (ts ++ (us ++ vs))) after
      (.conditional (through t.span (ts ++ (us ++ vs))) sense condition thenBranch
        elseBranch) := by
  intro after' hcalmer _
  have hvs := hcalmer.append vs
  exact .conditional ht (ihcondition _ (hvs.append us) trivial) (ihthen _ hvs trivial)
    (ihelse _ hcalmer trivial)

/-- A call before an assignment sign stays before one. -/
theorem callValue (ht : t.kind = .name name)
    (hwhole : (∃ span callee args lambda, whole = .call span callee args lambda) →
      headKind after = some (.symbol .assign))
    (ihcall : Stands context (.callOf ⟨name, t.span⟩) ts (us ++ after) call)
    (ihrest : Stands context (.continued call) us after whole) :
    Stands context .callable (t :: (ts ++ us)) after (.value whole) := by
  intro after' hcalmer haccepts
  have hwhole' := fun hcall => (haccepts (hwhole hcall)).trans (hwhole hcall)
  exact .callValue ht (ihcall _ (hcalmer.append us) trivial) (ihrest _ hcalmer trivial) hwhole'

/-- The first argument is where it was. -/
theorem bareCall {args : List (Expr σ)} (hcalls : context.calls = context'.calls)
    (ht : t.kind = .name name)
    (hbegins :
      Grammar.beginsArgument (headKind (ts ++ after)) (headTouches (ts ++ after)) = true)
    (hargs : Reads context' .bareArguments ts after args)
    (hcount : args.length ≤ 1 ∨ name ∈ context'.calls)
    (ih : Stands context .bareArguments ts after args) :
    Stands context .callable (t :: ts) after
      (.statement (.invoke (through t.span ts) ⟨name, t.span⟩ args none)) := by
  intro after' hcalmer _
  obtain ⟨u, us, rfl, -⟩ : BeginsWith beginsExpression ts := hargs.opens
  exact .bareCall ht hbegins (ih _ hcalmer trivial) (by rwa [hcalls])

/-- What ends statements begins no argument, and a bracket that comes next touches the name
only if the one that came next did. -/
theorem wordValue (ht : t.kind = .name name)
    (hparen : headKind (ts ++ after) ≠ some (.symbol .openParen))
    (hbegins :
      Grammar.beginsArgument (headKind (ts ++ after)) (headTouches (ts ++ after)) = false)
    (ih : Stands context (.continued (.word t.span name)) ts after whole) :
    Stands context .callable (t :: ts) after (.value whole) := by
  intro after' hcalmer _
  have hts := hcalmer.append ts
  refine .wordValue ht (hts.head_ne hparen nofun) ?_ (ih _ hcalmer trivial)
  cases hk : headKind (ts ++ after') with
  | none => rfl
  | some k =>
    obtain hk' | hends := hts.head k hk
    · by_cases hbracket : k = .symbol .openBracket
      · subst hbracket
        rw [hk', ← hts.touches hk] at hbegins
        exact hbegins
      · rw [hk'] at hbegins
        unfold Grammar.beginsArgument at hbegins ⊢
        split <;> simp_all
    · exact Kind.beginsArgument_of_endsStatement hends _

end Phrase.Stands

/-- Every derived phrase stands.  Most rules ask only that a kind that ends no statement does
not come next (`Calmer.head_ne`). -/
theorem Reads.stands {p : Phrase σ} {ts after : List (Token σ)} {v : p.Value}
    (h : Reads context p ts after v) (hcalls : context'.calls = context.calls) :
    p.Stands context' ts after v := by
  induction h with
  | noParameters hnl hafter =>
    exact fun _ _ hpipe => .noParameters hnl ((hpipe hafter).trans hafter)
  | lastParameter hnl ht hnl' hafter =>
    exact fun _ _ hpipe => .lastParameter hnl ht hnl' ((hpipe hafter).trans hafter)
  | moreParameters hnl ht hnl' hcomma _ ih =>
    exact fun _ hcalmer hpipe => .moreParameters hnl ht hnl' hcomma (ih _ hcalmer hpipe)
  | expression _ _ ihleft ihrest =>
    exact fun _ hcalmer _ =>
      .expression (ihleft _ (hcalmer.append _) trivial) (ihrest _ hcalmer trivial)
  | noOperator hafter => exact .noOperator hafter
  | operator ht hlevel hnl _ _ ihright ihrest =>
    exact fun _ hcalmer _ =>
      .operator ht hlevel hnl (ihright _ (hcalmer.append _) trivial) (ihrest _ hcalmer trivial)
  | sign ht _ ih => exact fun _ hcalmer _ => .sign ht (ih _ hcalmer trivial)
  | operand _ _ ihfirst ihrest =>
    exact fun _ hcalmer _ =>
      .operand (ihfirst _ (hcalmer.append _) trivial) (ihrest _ hcalmer trivial)
  | noSuffix hdot hbracket => exact .noSuffix hdot hbracket
  | method hdot ht _ _ _ ihargs ihlambda ihrest => exact .method hdot ht ihargs ihlambda ihrest
  | access hopener htouching _ hcloser hne _ ihkeys ihrest =>
    exact .access hopener htouching hcloser hne ihkeys ihrest
  | var ht => exact fun _ _ _ => .var ht
  | reference ht => exact fun _ _ _ => .reference ht
  | literal ht => exact fun _ _ _ => .literal ht
  | name _ ih => exact fun _ hcalmer _ => .name (ih _ hcalmer trivial)
  | array hopener _ hcloser ih =>
    exact fun _ hcalmer _ => .array hopener (ih _ (hcalmer.append [_]) (.inr rfl)) hcloser
  | hash hopener hnl _ hcloser ih =>
    exact fun _ hcalmer _ => .hash hopener hnl (ih _ (hcalmer.append [_]) (.inr rfl)) hcloser
  | parentheses hopener hnl _ hnl' hcloser ih =>
    exact fun _ hcalmer _ =>
      .parentheses hopener hnl (ih _ ((hcalmer.append [_]).append _) trivial) hnl' hcloser
  | noElements hnl hafter =>
    exact fun _ _ hlist => .noElements hnl fun k hk => hafter k (headKind_of_accepts hlist hk)
  | lastElement hnl _ hnl' hnewline hcomma ih =>
    exact fun _ hcalmer hlist => .lastElement hnl (ih _ (hcalmer.append _) trivial) hnl'
      (mt (headKind_of_accepts hlist) hnewline) (mt (headKind_of_accepts hlist) hcomma)
  | moreElements hnl _ hnl' hcomma _ ih ihrest =>
    exact fun _ hcalmer hlist =>
      .moreElements hnl (ih _ ((hcalmer.append (_ :: _)).append _) trivial) hnl' hcomma
        (ihrest _ hcalmer hlist)
  | noEntries hafter =>
    exact fun _ _ hlist => .noEntries fun k hk => hafter k (headKind_of_accepts hlist hk)
  | lastEntry _ hnl₁ harrow hnl₂ _ hnl₃ hnewline hcomma ihkey ihvalue =>
    exact .lastEntry hnl₁ harrow hnl₂ hnl₃ hnewline hcomma ihkey ihvalue
  | moreEntries _ hnl₁ harrow hnl₂ _ hnl₃ hcomma hnl₄ hnewline _ ihkey ihvalue ihrest =>
    exact .moreEntries hnl₁ harrow hnl₂ hnl₃ hcomma hnl₄ hnewline ihkey ihvalue ihrest
  | arguments hopener _ hcloser ih =>
    exact fun _ hcalmer _ => .arguments hopener (ih _ (hcalmer.append [_]) (.inr rfl)) hcloser
  | noArguments hafter => exact fun _ hcalmer _ => .noArguments (hcalmer.head_ne hafter nofun)
  | someArguments _ ih => exact fun _ hcalmer _ => .someArguments (ih _ hcalmer trivial)
  | bareArguments _ _ ihfirst ihrest =>
    exact fun _ hcalmer _ =>
      .bareArguments (ihfirst _ (hcalmer.append _) trivial) (ihrest _ hcalmer trivial)
  | noMoreArguments hafter =>
    exact fun _ hcalmer _ => .noMoreArguments (hcalmer.head_ne hafter nofun)
  | moreArguments hcomma hnl _ _ ihfirst ihrest =>
    exact fun _ hcalmer _ =>
      .moreArguments hcomma hnl (ihfirst _ (hcalmer.append _) trivial) (ihrest _ hcalmer trivial)
  | word ht hafter => exact fun _ hcalmer _ => .word ht (hcalmer.head_ne hafter nofun)
  | call ht _ ih => exact fun _ hcalmer _ => .call ht (ih _ hcalmer trivial)
  | callOf _ _ ihargs ihlambda =>
    exact fun _ hcalmer _ =>
      .callOf (ihargs _ (hcalmer.append _) trivial) (ihlambda _ hcalmer trivial)
  | noLambda hpipe hpipes =>
    exact fun _ hcalmer _ =>
      .noLambda (hcalmer.head_ne hpipe nofun) (hcalmer.head_ne hpipes nofun)
  | someLambda _ ih => exact fun _ hcalmer _ => .someLambda (ih _ hcalmer trivial)
  | lambdaNoList ht _ ih => exact fun _ hcalmer _ => .lambdaNoList ht (ih _ hcalmer trivial)
  | lambda hopener _ hcloser _ ihparams ihbody => exact .lambda hopener hcloser ihparams ihbody
  | lambdaBody hnl _ ih => exact fun _ hcalmer _ => .lambdaBody hnl (ih _ hcalmer trivial)
  | block hopener _ hcloser ih =>
    exact fun _ hcalmer _ => .block hopener (ih _ (hcalmer.append [_]) (.inr rfl)) hcloser
  | noStatements hseps hafter =>
    exact fun _ _ hlist => .noStatements hseps fun k hk => hafter k (headKind_of_accepts hlist hk)
  | moreStatements hseps _ hcomma _ ihfirst ihrest =>
    exact .moreStatements hseps hcomma ihfirst ihrest
  | branching ht _ ih => exact fun _ hcalmer _ => .branching ht (ih _ hcalmer trivial)
  | invocation _ ih => exact fun _ hcalmer _ => .invocation (ih _ hcalmer trivial)
  | callableValue _ hstmt ih ihstmt => exact .callableValue hstmt ih ihstmt
  | value hname _ _ ih ihstmt =>
    exact fun _ hcalmer _ =>
      .value hname (ih _ (hcalmer.append _) trivial) (ihstmt _ hcalmer trivial)
  | assignment ht htarget hnl _ ih =>
    exact fun _ hcalmer _ => .assignment ht htarget hnl (ih _ hcalmer trivial)
  | noAssignment hafter => exact fun _ hcalmer _ => .noAssignment (hcalmer.head_ne hafter nofun)
  | conditional ht _ _ _ ihcondition ihthen ihelse =>
    exact .conditional ht ihcondition ihthen ihelse
  | noAlternative helsif helse =>
    exact fun _ hcalmer _ =>
      .noAlternative (fun hsense hk => helsif hsense (hcalmer.branch _ (.inl rfl) hk))
        fun hk => helse (hcalmer.branch _ (.inr rfl) hk)
  | elsifAlternative hnl ht _ ih =>
    exact fun _ hcalmer _ => .elsifAlternative hnl ht (ih _ hcalmer trivial)
  | elseAlternative hnl ht _ ih =>
    exact fun _ hcalmer _ => .elseAlternative hnl ht (ih _ hcalmer trivial)
  | wholeCall ht _ _ hafter ihcall ihrest =>
    exact fun _ hcalmer _ => .wholeCall ht (ihcall _ (hcalmer.append _) trivial)
      (ihrest _ hcalmer trivial) (hcalmer.head_ne hafter nofun)
  | callValue ht _ _ hwhole ihcall ihrest => exact .callValue ht hwhole ihcall ihrest
  | bareCall ht hbegins hargs hcount ih => exact .bareCall hcalls ht hbegins hargs hcount ih
  | wordValue ht hparen hbegins _ ih => exact .wordValue ht hparen hbegins ih
  | continued _ _ ihleft ihrest =>
    exact fun _ hcalmer _ =>
      .continued (ihleft _ (hcalmer.append _) trivial) (ihrest _ hcalmer trivial)
  | noProgram | program => exact fun _ _ hno => hno.elim

/-- **Follow**: a phrase derives the same before tokens that continue no more. -/
theorem Reads.before {p : Phrase σ} {ts after after' : List (Token σ)} {v : p.Value}
    (h : Reads context p ts after v) (hcalls : context'.calls = context.calls)
    (hcalmer : Calmer after after') (haccepts : p.Accepts after after' v) :
    Reads context' p ts after' v :=
  h.stands hcalls after' hcalmer haccepts

/-- A phrase derives the same with fewer tokens after it. -/
theorem Reads.truncate {p : Phrase σ} {ts after : List (Token σ)} {v : p.Value}
    (rest : List (Token σ)) (h : Reads context p ts (after ++ rest) v)
    (haccepts : p.Accepts (after ++ rest) after v) : Reads context p ts after v :=
  h.before rfl (.take after rest) haccepts

/-- What comes behind the closer of a block is not seen before it. -/
theorem Reads.block_before {construct : Construct} {body : Block σ} {ts after : List (Token σ)}
    (h : Reads context (.block construct) ts after body) (after' : List (Token σ)) :
    Reads context (.block construct) ts after' body := by
  cases h with
  | block hopener hstmts hcloser =>
    exact .block hopener (hstmts.before rfl (.of_cons (by simp [hcloser]) after after') (.inr rfl))
      hcloser

/-! ## nothing after a phrase -/

variable {ts after : List (Token σ)}

/-- A phrase that accepts the end of the input derives the same with nothing after it. -/
theorem Reads.alone {p : Phrase σ} {v : p.Value} (h : Reads context p ts after v)
    (haccepts : p.Accepts after [] v) : Reads context p ts [] v :=
  .truncate after h haccepts

/-- No operator goes on at the end. -/
theorem Reads.operators_nil (floor : Nat) (left : Expr σ) :
    Reads context (.operators floor left) [] [] left :=
  .noOperator fun _ h => by cases h

/-- No suffix goes on at the end. -/
theorem Reads.suffixes_nil (target : Expr σ) : Reads context (.suffixes target) [] [] target :=
  .noSuffix nofun nofun

/-- A value goes on with nothing at the end. -/
theorem Reads.continued_end (value : Expr σ) : Reads context (.continued value) [] [] value :=
  .continued (.suffixes_nil value) (.operators_nil 0 value)

/-- An operand is an expression at the end. -/
theorem Reads.expression_of_operand {v : Expr σ} (h : Reads context .operand ts after v) :
    Reads context (.expression 0) ts [] v := by
  have hexpression := Reads.expression (h.alone trivial) (.operators_nil 0 v)
  rwa [List.append_nil] at hexpression

/-- So is a primary. -/
theorem Reads.expression_of_primary {v : Expr σ} (h : Reads context .primary ts after v) :
    Reads context (.expression 0) ts [] v := by
  have hoperand := Reads.operand (h.alone trivial) (.suffixes_nil v)
  rw [List.append_nil] at hoperand
  exact hoperand.expression_of_operand

end CallGrammar
