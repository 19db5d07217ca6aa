import CallGrammar.Proofs.Breaks

/-!
# CallGrammar.Proofs.Breaks.Grammar

Tokens derive the same with line breaks before those of brackets that allow one
(`Breaking.reads_program`).  Each rule of the grammar has its lemma, about the phrase it derives.

Where a rule skips line breaks, those that are put there are skipped as well.  Where it skips none
a value has ended before the place (`Reads.ends`), or a sign stands there, and no token that may
come next is one before which a line is broken.
-/

namespace CallGrammar

variable {σ : Type}

/-! ## the ends of values -/

/-- Phrases that are values end one; those that may follow a value do so unless they are empty. -/
def Phrase.Ends : Phrase σ → (ts : List (Token σ)) → Prop
  | expression _, ts | operand, ts | primary, ts | arguments, ts | bareArguments, ts
  | callOrWord, ts | callOf _, ts | lambda, ts | lambdaBody _ _, ts | callable, ts => EndsValue ts
  | operators _ _, ts | suffixes _, ts | optionalArguments, ts | moreBareArguments, ts
  | optionalLambda, ts | continued _, ts => ts = [] ∨ EndsValue ts
  | block construct, ts => construct.closer = .closeBrace → EndsValue ts
  | _, _ => True

section

variable {t : Token σ} {ts us : List (Token σ)} {k : Kind}

/-- A value with more behind it, if that is nothing or ends a value too. -/
theorem EndsValue.append (h : EndsValue ts) (h' : us = [] ∨ EndsValue us) :
    EndsValue (ts ++ us) := by
  obtain rfl | h' := h'
  · rwa [List.append_nil]
  · exact h'.prepend ts

theorem EndsValue.append_or (h : ts = [] ∨ EndsValue ts) (h' : us = [] ∨ EndsValue us) :
    ts ++ us = [] ∨ EndsValue (ts ++ us) := by
  obtain rfl | h := h
  · exact h'
  · exact .inr (h.append h')

theorem EndsValue.cons (h : EndsValue ts) (t : Token σ) : EndsValue (t :: ts) := h.prepend [t]

/-- A token that ends a value, and what may follow it. -/
theorem endsValue_cons (ht : t.kind = k) (hk : k.endsValue = true) (h : ts = [] ∨ EndsValue ts) :
    EndsValue (t :: ts) :=
  have hsingle : EndsValue [t] := endsValue_concat (by rw [ht, hk]) []
  hsingle.append h

/-- Brackets end a value. -/
theorem endsValue_brackets (ht : t.kind = k) (hk : k.endsValue = true) (ts : List (Token σ)) :
    EndsValue (ts ++ [t]) :=
  endsValue_concat (by rw [ht, hk]) ts

end

/-- A phrase that is a value ends one, and what may follow a value does so unless it is empty.
-/
theorem Reads.ends [Location σ] {context : Context σ} {p : Phrase σ} {ts after : List (Token σ)}
    {v : p.Value} (h : Reads context p ts after v) : p.Ends ts := by
  induction h with
  | expression _ _ ihleft ihrest => exact ihleft.append ihrest
  | noOperator _ => exact .inl rfl
  | operator _ _ _ _ _ ihright ihrest =>
    exact .inr (((ihright.append ihrest).prepend _).cons _)
  | sign _ _ ih => exact ih.cons _
  | operand _ _ ihfirst ihrest => exact ihfirst.append ihrest
  | noSuffix _ _ => exact .inl rfl
  | method _ ht _ _ _ ihargs ihlambda ihrest =>
    exact .inr (.cons (endsValue_cons ht rfl
      (EndsValue.append_or ihargs (EndsValue.append_or ihlambda ihrest))) _)
  | access _ _ _ hcloser _ _ _ ihrest =>
    exact .inr (((endsValue_cons hcloser rfl ihrest).prepend _).cons _)
  | var ht => exact endsValue_cons ht rfl (.inl rfl)
  | reference ht => exact endsValue_cons ht rfl (.inl rfl)
  | literal ht => exact endsValue_cons rfl (Kind.endsValue_literal ht) (.inl rfl)
  | name _ ih => exact ih
  | array _ _ hcloser _ => exact (endsValue_brackets hcloser rfl _).cons _
  | hash _ _ _ hcloser _ => exact ((endsValue_brackets hcloser rfl _).prepend _).cons _
  | parentheses _ _ _ _ hcloser _ =>
    exact (((endsValue_brackets hcloser rfl _).prepend _).prepend _).cons _
  | arguments _ _ hcloser _ => exact (endsValue_brackets hcloser rfl _).cons _
  | noArguments _ => exact .inl rfl
  | someArguments _ ih => exact .inr ih
  | bareArguments _ _ ihfirst ihrest => exact ihfirst.append ihrest
  | noMoreArguments _ => exact .inl rfl
  | moreArguments _ _ _ _ ihfirst ihrest =>
    exact .inr (((ihfirst.append ihrest).prepend _).cons _)
  | word ht _ => exact endsValue_cons ht rfl (.inl rfl)
  | call _ _ ih => exact ih.cons _
  | callOf _ _ ihargs ihlambda => exact ihargs.append ihlambda
  | noLambda _ _ => exact .inl rfl
  | someLambda _ ih => exact .inr ih
  | lambdaNoList _ _ ih => exact ih.cons _
  | lambda _ _ _ _ _ ihbody => exact ((ihbody.cons _).prepend _).cons _
  | lambdaBody _ _ ih => exact (ih rfl).prepend _
  | block _ _ hcloser _ =>
    intro hbrace
    exact (endsValue_brackets (hcloser.trans (congrArg Kind.symbol hbrace)) rfl _).cons _
  | wholeCall _ _ _ _ ihcall ihrest => exact (ihcall.append ihrest).cons _
  | callValue _ _ _ _ ihcall ihrest => exact (ihcall.append ihrest).cons _
  | bareCall _ _ _ _ ih => exact ih.cons _
  | wordValue ht _ _ _ ih => exact endsValue_cons ht rfl ih
  | continued _ _ ihleft ihrest => exact EndsValue.append_or ihleft ihrest
  | _ => trivial

/-! ## bodies -/

namespace Breaking

variable {w : Breaking σ} {before ts rest : List (Token σ)} {opener closer : Token σ}

/-- What is in no brackets is not marked. -/
theorem unmarked_of_tokens (h : w.tokens = ts) : w.Unmarked ts := by
  rintro front t rest rfl hfront
  refine if_neg fun hmarked => ?_
  obtain ⟨rfl, -, hleft, -, hbrackets⟩ := w.enclosed front t rest h hmarked
  have hopens := hbrackets.groups.1
  rw [not_opens_of_level hfront (hleft.level 0)] at hopens
  cases hopens

/-- Braces without an arrow of their own hold no marked token, or nothing but line breaks. -/
theorem unmarked_of_block (h : w.tokens = before ++ (opener :: (ts ++ closer :: rest)))
    (hopener : opener.kind = .symbol .openBrace) (hts : level 0 ts = some 0) (hplain : Plain 0 ts)
    (hcloser : closer.kind = .symbol .closeBrace) : w.Unmarked ts ∨ Newlines ts := by
  refine Classical.or_iff_not_imp_right.2 fun hne => ?_
  rintro front t us rfl hfront
  refine if_neg fun hmarked => ?_
  have hus : level 0 (t :: us) = some 0 := by
    rwa [level_append, hfront, Option.bind_some] at hts
  obtain ⟨hinside, hrest, hleft, hright, hbrackets⟩ :=
    w.enclosed (before ++ opener :: front) t (us ++ closer :: rest) (by simpa using h) hmarked
  obtain ⟨hopens, hcloses⟩ := hbrackets.groups
  obtain ⟨-, rfl, rfl⟩ :=
    eq_of_level hinside (by rw [hopener]; rfl) hopens hfront (hleft.level 0)
  rw [← List.cons_append] at hrest
  obtain rfl := eq_of_level_front hrest (by rw [hcloser]; rfl) hcloses hus (hright.level 0)
  generalize hinner : front ++ t :: us = inner at hbrackets hplain hne
  cases hbrackets with
  | parentheses hparen | brackets hparen => rw [hopener] at hparen; cases hparen
  | hash _ hkey harrow => exact not_arrow_of_plain hplain (hkey.level 0) harrow
  | emptyHash _ hinner => exact hne hinner

end Breaking

/-! ## every phrase -/

open Insertion Breaking

variable [Location σ]

/-- What a phrase is told of the tokens before it and of its own: whether a value has ended, and
that those in a body or in no brackets are not marked. -/
def Phrase.Situated (w : Breaking σ) : Phrase σ → (before ts : List (Token σ)) → Prop
  | expression _, before, ts | operand, before, ts => ¬ EndsValue before ∨ w.Unmarked ts
  | elements _, before, _ | entries, before, _ => ¬ EndsValue before
  | operators _ _, before, _ | suffixes _, before, _ | continued _, before, _
  | optionalArguments, before, _ | arguments, before, _ | callOf _, before, _
  | valueStatement _, before, _ => EndsValue before
  | optionalLambda, before, _ | lambda, before, _ => BehindCall before
  | bareArguments, _, ts | moreBareArguments, _, ts | statement, _, ts | callable, _, ts =>
    w.Unmarked ts
  | statements, _, ts => w.Unmarked ts ∨ Newlines ts
  | block construct, _, _ => construct.closer = .closeBrace
  | program, before, _ => before = []
  | _, _, _ => True

/-- With the line breaks the tokens derive the same.  Before the first token of a phrase that
cannot be empty none is put; what is read up to a closer takes those before it. -/
def Phrase.Broken (w : Breaking σ) (context : Context σ) :
    (p : Phrase σ) → (ts after : List (Token σ)) → p.Value → Prop
  | parameters opener, ts, after, v =>
    Reads context (.parameters opener) (w.put ts ++ w.lead after) (w.body after) v
  | elements construct, ts, after, v =>
    Reads context (.elements construct) (w.put ts ++ w.lead after) (w.body after) v
  | entries, ts, after, v => Reads context .entries (w.trunk ts after) (w.body after) v
  | statements, ts, after, v =>
    Reads context .statements (w.put ts ++ w.lead after) (w.body after) v
  | expression floor, ts, after, v => Reads context (.expression floor) (w.body ts) (w.put after) v
  | operand, ts, after, v => Reads context .operand (w.body ts) (w.put after) v
  | primary, ts, after, v => Reads context .primary (w.body ts) (w.put after) v
  | bareArguments, ts, after, v => Reads context .bareArguments (w.body ts) (w.put after) v
  | callOrWord, ts, after, v => Reads context .callOrWord (w.body ts) (w.put after) v
  | block construct, ts, after, v => Reads context (.block construct) (w.body ts) (w.put after) v
  | statement, ts, after, v => Reads context .statement (w.body ts) (w.put after) v
  | conditional sense, ts, after, v =>
    Reads context (.conditional sense) (w.body ts) (w.put after) v
  | callable, ts, after, v => Reads context .callable (w.body ts) (w.put after) v
  | p, ts, after, v => Reads context p (w.put ts) (w.put after) v

/-- Wherever the tokens stand in the vector. -/
def Phrase.Breaks (w : Breaking σ) (context : Context σ) (p : Phrase σ)
    (ts after : List (Token σ)) (v : p.Value) : Prop :=
  ∀ before, w.tokens = before ++ (ts ++ after) → p.Situated w before ts →
    p.Broken w context ts after v

namespace Phrase.Breaks

variable {w : Breaking σ} {context : Context σ}

/-! ## parameters -/

theorem noParameters {opener : σ} {nl after : List (Token σ)} (hnl : Newlines nl)
    (hafter : headKind after = some (.symbol .pipe)) :
    Breaks w context (.parameters opener) nl after [] := by
  intro before hw _
  exact .noParameters (w.newlines_put_append hnl after) (by rw [headKind_body, hafter])

theorem lastParameter {opener : σ} {t : Token σ} {name : String} {nl nl' after : List (Token σ)}
    (hnl : Newlines nl) (ht : t.kind = .var name) (hnl' : Newlines nl')
    (hafter : headKind after = some (.symbol .pipe)) :
    Breaks w context (.parameters opener) (nl ++ t :: nl') after [⟨name, t.span⟩] := by
  intro before hw _
  have hparams : Reads context (.parameters opener)
      ((w.put nl ++ w.mark t) ++ w.place t :: (w.put nl' ++ w.lead after)) (w.body after)
      [⟨name, t.span⟩] :=
    .lastParameter (w.newlines_put_mark hnl t) ht (w.newlines_put_append hnl' after)
      (by rw [headKind_body, hafter])
  exact hparams.of_eq (by simp [put_append, put])

theorem moreParameters {opener : σ} {t comma : Token σ} {name : String}
    {params : List (Ident σ)} {nl nl' ts after : List (Token σ)} (hnl : Newlines nl)
    (ht : t.kind = .var name) (hnl' : Newlines nl') (hcomma : comma.kind = .symbol .comma)
    (ih : Breaks w context (.parameters opener) ts after params) :
    Breaks w context (.parameters opener) (nl ++ t :: (nl' ++ comma :: ts)) after
      (⟨name, t.span⟩ :: params) := by
  intro before hw _
  have hrest := ih (before ++ (nl ++ t :: (nl' ++ [comma]))) (by simpa using hw) trivial
  have hparams : Reads context (.parameters opener)
      ((w.put nl ++ w.mark t) ++ w.place t :: ((w.put nl' ++ w.mark comma) ++
        w.place comma :: (w.put ts ++ w.lead after))) (w.body after) (⟨name, t.span⟩ :: params) :=
    .moreParameters (w.newlines_put_mark hnl t) ht (w.newlines_put_mark hnl' comma) hcomma hrest
  exact hparams.of_eq (by simp [put_append, put])

/-! ## expressions -/

/-- Before what goes on a value has ended, so no line is broken there but in the way that
operators allow. -/
theorem expression {floor : Nat} {left value : Expr σ} {ts us after : List (Token σ)}
    (hleft : Reads context .operand ts (us ++ after) left)
    (ihleft : Breaks w context .operand ts (us ++ after) left)
    (ihrest : Breaks w context (.operators floor left) us after value) :
    Breaks w context (.expression floor) (ts ++ us) after value := by
  intro before hw hsituated
  have hends : EndsValue (before ++ ts) := hleft.ends.prepend before
  have hleft' : Reads context .operand (w.body ts) (w.put (us ++ after)) left :=
    ihleft before (by simpa using hw) (hsituated.imp_right Unmarked.left)
  have hrest := ihrest (before ++ ts) (by simpa using hw) hends
  rw [put_append] at hleft'
  exact (Reads.expression hleft' hrest).of_eq (body_append hleft.opens.ne_nil us)

/-- Behind an operator a line may be broken: the line breaks are skipped. -/
theorem operator {floor : Nat} {left right value : Expr σ} {t : Token σ} {op : BinaryOp}
    {nl ts us after : List (Token σ)} (ht : BinaryOp.ofKind? t.kind = some op)
    (hlevel : floor ≤ op.level) (hnl : Newlines nl)
    (hright : Reads context (.expression (op.level + 1)) ts (us ++ after) right)
    (ihright : Breaks w context (.expression (op.level + 1)) ts (us ++ after) right)
    (ihrest : Breaks w context
      (.operators floor (.binary (Location.merge left.span right.span) op left right))
      us after value) :
    Breaks w context (.operators floor left) (t :: (nl ++ (ts ++ us))) after value := by
  intro before hw hsituated
  obtain ⟨hbefore, hbar⟩ := Kind.breaksBefore_binary ht
  have hmark : w.mark t = [] :=
    mark_of_not_breakable (by simpa using hw) (not_breakable_of_endsValue hsituated hbefore hbar)
  have hends : EndsValue ((before ++ t :: nl) ++ ts) := hright.ends.prepend _
  have hright' : Reads context (.expression (op.level + 1)) (w.body ts) (w.put (us ++ after))
      right :=
    ihright (before ++ t :: nl) (by simpa using hw)
      (.inl (not_endsValue_cons (Kind.endsValue_binary ht) hnl before))
  have hrest := ihrest ((before ++ t :: nl) ++ ts) (by simpa using hw) hends
  rw [put_append] at hright'
  exact (Reads.operator ht hlevel (w.newlines_put_append hnl ts) hright' hrest).of_eq
    (by simp [put_cons hmark, put_append, put_eq ts])

theorem sign {t : Token σ} {op : UnaryOp} {inner : Expr σ} {ts after : List (Token σ)}
    (ht : UnaryOp.ofKind? t.kind = some op) (hinner : Reads context .operand ts after inner)
    (ih : Breaks w context .operand ts after inner) :
    Breaks w context .operand (t :: ts) after
      (.unary (Location.merge t.span inner.span) op inner) := by
  intro before hw hsituated
  obtain ⟨hends, hbehind, hvar⟩ := Kind.endsValue_unary ht
  have hlead : w.lead ts = [] := by
    obtain hnot | hunmarked := hsituated
    · have hw' : w.tokens = (before ++ [t]) ++ (ts ++ after) := by simpa using hw
      refine lead_of_begins hw' hinner.opens Kind.breaksBefore_of_beginsExpression
        fun k hbefore hbar => ?_
      refine not_breakable (lastKind_concat none before t) hbehind (fun _ _ front u heq => ?_) ?_ ?_
      · obtain ⟨rfl, -⟩ := List.append_inj' heq rfl
        exact hnot
      · rintro _ ⟨⟩
        exact hbefore
      · rintro ⟨⟩
        exact absurd rfl hbar
    · have hflat : t.kind.isFlat = true := Kind.isFlat_of_isInert (UnaryOp.inert ht)
      exact (hunmarked.tail (Kind.isInner_of_isFlat hflat)).lead
  have hinner' : Reads context .operand (w.body ts) (w.put after) inner :=
    ih (before ++ [t]) (by simpa using hw) (.inl (not_endsValue_concat hends before))
  have hsign : Reads context .operand (w.place t :: w.body ts) (w.put after)
      (.unary (Location.merge t.span inner.span) op inner) := .sign ht hinner'
  rwa [← put_of_lead hlead] at hsign

theorem operand {first value : Expr σ} {ts us after : List (Token σ)}
    (hfirst : Reads context .primary ts (us ++ after) first)
    (ihfirst : Breaks w context .primary ts (us ++ after) first)
    (ihrest : Breaks w context (.suffixes first) us after value) :
    Breaks w context .operand (ts ++ us) after value := by
  intro before hw _
  have hends : EndsValue (before ++ ts) := hfirst.ends.prepend before
  have hfirst' : Reads context .primary (w.body ts) (w.put (us ++ after)) first :=
    ihfirst before (by simpa using hw) trivial
  have hrest := ihrest (before ++ ts) (by simpa using hw) hends
  rw [put_append] at hfirst'
  exact (Reads.operand hfirst' hrest).of_eq (body_append hfirst.opens.ne_nil us)

/-- No line is broken before the dot, as a value has ended, nor behind it. -/
theorem method {target value : Expr σ} {dot t : Token σ} {name : String} {args : List (Expr σ)}
    {lambda : Option (Lambda σ)} {ts us vs after : List (Token σ)}
    (hdot : dot.kind = .symbol .dot) (ht : t.kind = .name name)
    (hargs : Reads context .optionalArguments ts (us ++ (vs ++ after)) args)
    (hlambda : Reads context .optionalLambda us (vs ++ after) lambda)
    (ihargs : Breaks w context .optionalArguments ts (us ++ (vs ++ after)) args)
    (ihlambda : Breaks w context .optionalLambda us (vs ++ after) lambda)
    (ihrest : Breaks w context
      (.suffixes (.method (through target.span (dot :: t :: (ts ++ us))) target ⟨name, t.span⟩
        args lambda)) vs after value) :
    Breaks w context (.suffixes target) (dot :: t :: (ts ++ (us ++ vs))) after value := by
  intro before hw hsituated
  have hmark : w.mark dot = [] := mark_of_not_breakable (by simpa using hw)
    (not_breakable_of_endsValue hsituated (by rw [hdot]; rfl) (by rw [hdot]; nofun))
  have hw' : w.tokens = (before ++ [dot]) ++ t :: (ts ++ (us ++ (vs ++ after))) := by
    simpa using hw
  have hmark' : w.mark t = [] := mark_of_not_breakable hw' (not_breakable_concat
    (by rw [hdot]; rfl) (by rw [hdot]; rfl) (by rw [ht]; rfl) (by rw [ht]; nofun))
  have hname : EndsValue ((before ++ [dot]) ++ [t]) := endsValue_concat (by rw [ht]; rfl) _
  have hbehind : BehindCall ((before ++ [dot]) ++ t :: ts) := hargs.behindCall ht
  have hends : EndsValue ((before ++ [dot]) ++ t :: (ts ++ us)) :=
    (endsValue_cons ht rfl (EndsValue.append_or hargs.ends hlambda.ends)).prepend _
  have hthrough : through target.span (dot :: t :: (w.put ts ++ w.put us))
      = through target.span (dot :: t :: (ts ++ us)) := by
    rw [← w.through_put target.span (dot :: t :: (ts ++ us)), put_cons hmark, put_cons hmark',
      put_append]
  have hargs' : Reads context .optionalArguments (w.put ts) (w.put (us ++ (vs ++ after))) args :=
    ihargs _ (by simpa using hw) hname
  have hlambda' : Reads context .optionalLambda (w.put us) (w.put (vs ++ after)) lambda :=
    ihlambda _ (by simpa using hw) hbehind
  have hrest : Reads context (.suffixes (.method
      (through target.span (dot :: t :: (w.put ts ++ w.put us))) target ⟨name, t.span⟩ args
        lambda)) (w.put vs) (w.put after) value := by
    rw [hthrough]
    exact ihrest _ (by simpa using hw) hends
  simp only [put_append] at hargs' hlambda'
  exact (Reads.method hdot ht hargs' hlambda' hrest).of_eq
    (by simp [put_cons hmark, put_cons hmark', put_append])

/-- The bracket touches the target, so no line is broken between them. -/
theorem access {target value : Expr σ} {opener closer : Token σ} {keys : List (Expr σ)}
    {ts us after : List (Token σ)} (hopener : opener.kind = .symbol .openBracket)
    (htouching : opener.touching = true) (hcloser : closer.kind = .symbol .closeBracket)
    (hne : keys ≠ [])
    (ihkeys : Breaks w context (.elements .access) ts (closer :: (us ++ after)) keys)
    (ihrest : Breaks w context
      (.suffixes (.access (Location.merge target.span closer.span) target keys)) us after value) :
    Breaks w context (.suffixes target) (opener :: (ts ++ closer :: us)) after value := by
  intro before hw hsituated
  have hmark : w.mark opener = [] := mark_of_not_breakable (by simpa using hw)
    (not_breakable_of_endsValue hsituated (by rw [hopener]; rfl) (by rw [hopener]; nofun))
  have hends : EndsValue ((before ++ opener :: ts) ++ [closer]) := endsValue_brackets hcloser rfl _
  have hkeys : Reads context (.elements .access) (w.put ts ++ w.mark closer)
      (w.place closer :: w.put (us ++ after)) keys :=
    ihkeys (before ++ [opener]) (by simpa using hw)
      (not_endsValue_concat (by rw [hopener]; rfl) before)
  have hrest := ihrest _ (by simpa using hw) hends
  rw [put_append] at hkeys
  exact (Reads.access hopener htouching hkeys hcloser hne hrest).of_eq
    (by rw [put_cons hmark]; simp [put_append, put])

theorem array {opener closer : Token σ} {items : List (Expr σ)} {ts after : List (Token σ)}
    (hopener : opener.kind = .symbol .openBracket)
    (hcloser : closer.kind = .symbol .closeBracket)
    (ih : Breaks w context (.elements .array) ts (closer :: after) items) :
    Breaks w context .primary (opener :: (ts ++ [closer])) after
      (.array (Location.merge opener.span closer.span) items) := by
  intro before hw _
  have hitems : Reads context (.elements .array) (w.put ts ++ w.mark closer)
      (w.place closer :: w.put after) items :=
    ih (before ++ [opener]) (by simpa using hw)
      (not_endsValue_concat (by rw [hopener]; rfl) before)
  have harray : Reads context .primary
      (w.place opener :: ((w.put ts ++ w.mark closer) ++ [w.place closer])) (w.put after)
      (.array (Location.merge opener.span closer.span) items) := .array hopener hitems hcloser
  exact harray.of_eq (by simp [body, put_append, put])

theorem hash {opener closer : Token σ} {found : List (Entry σ)} {nl ts after : List (Token σ)}
    (hopener : opener.kind = .symbol .openBrace) (hnl : Newlines nl)
    (hcloser : closer.kind = .symbol .closeBrace)
    (ih : Breaks w context .entries ts (closer :: after) found) :
    Breaks w context .primary (opener :: (nl ++ (ts ++ [closer]))) after
      (.hash (Location.merge opener.span closer.span) found) := by
  intro before hw _
  have hfound : Reads context .entries (w.trunk ts (closer :: after))
      (w.place closer :: w.put after) found :=
    ih (before ++ opener :: nl) (by simpa using hw)
      (not_endsValue_cons (by rw [hopener]; rfl) hnl before)
  have hhash : Reads context .primary (w.place opener ::
      ((w.put nl ++ w.lead (ts ++ closer :: after)) ++
        (w.trunk ts (closer :: after) ++ [w.place closer]))) (w.put after)
      (.hash (Location.merge opener.span closer.span) found) :=
    .hash hopener (w.newlines_put_append hnl _) hfound hcloser
  have hlead := w.lead_trunk ts (closer :: after)
  refine hhash.of_eq ?_
  rw [List.append_assoc, ← List.append_assoc (w.lead _), hlead]
  simp [body, put_append, put, lead]

theorem parentheses {opener closer : Token σ} {inner : Expr σ}
    {nl nl' ts after : List (Token σ)} (hopener : opener.kind = .symbol .openParen)
    (hnl : Newlines nl) (hnl' : Newlines nl') (hcloser : closer.kind = .symbol .closeParen)
    (ih : Breaks w context (.expression 0) ts (nl' ++ closer :: after) inner) :
    Breaks w context .primary (opener :: (nl ++ (ts ++ (nl' ++ [closer])))) after
      (inner.withSpan (Location.merge opener.span closer.span)) := by
  intro before hw _
  have hinner : Reads context (.expression 0) (w.body ts) (w.put (nl' ++ closer :: after)) inner :=
    ih (before ++ opener :: nl) (by simpa using hw)
      (.inl (not_endsValue_cons (by rw [hopener]; rfl) hnl before))
  rw [put_append, put, ← List.append_assoc] at hinner
  have hparentheses : Reads context .primary (w.place opener :: ((w.put nl ++ w.lead ts) ++
      (w.body ts ++ ((w.put nl' ++ w.mark closer) ++ [w.place closer])))) (w.put after)
      (inner.withSpan (Location.merge opener.span closer.span)) :=
    .parentheses hopener (w.newlines_put_append hnl ts) hinner (w.newlines_put_mark hnl' closer)
      hcloser
  exact hparentheses.of_eq (by simp [body, put_append, put_eq ts, put])

/-! ## lists -/

theorem noElements {construct : Construct} {nl after : List (Token σ)} (hnl : Newlines nl)
    (hafter : ∀ k, headKind after = some k → k = .symbol construct.closer) :
    Breaks w context (.elements construct) nl after [] := by
  intro before hw _
  exact .noElements (w.newlines_put_append hnl after) (by rwa [headKind_body])

theorem lastElement {construct : Construct} {item : Expr σ} {nl nl' ts after : List (Token σ)}
    (hnl : Newlines nl) (hnl' : Newlines nl') (hnewline : headKind after ≠ some .newline)
    (hcomma : headKind after ≠ some (.symbol .comma))
    (ih : Breaks w context (.expression 0) ts (nl' ++ after) item) :
    Breaks w context (.elements construct) (nl ++ (ts ++ nl')) after [item] := by
  intro before hw hsituated
  have hitem : Reads context (.expression 0) (w.body ts) (w.put (nl' ++ after)) item :=
    ih (before ++ nl) (by simpa using hw) (.inl (not_endsValue_newlines hsituated hnl))
  rw [put_append, w.put_eq after, ← List.append_assoc] at hitem
  exact (Reads.lastElement (w.newlines_put_append hnl ts) hitem (w.newlines_put_append hnl' after)
    (by rwa [headKind_body]) (by rwa [headKind_body])).of_eq (by simp [put_append, put_eq ts])

/-- Line breaks around the comma are skipped. -/
theorem moreElements {construct : Construct} {item : Expr σ} {items : List (Expr σ)}
    {comma : Token σ} {nl nl' ts us after : List (Token σ)} (hnl : Newlines nl)
    (hnl' : Newlines nl') (hcomma : comma.kind = .symbol .comma)
    (ih : Breaks w context (.expression 0) ts (nl' ++ comma :: (us ++ after)) item)
    (ihrest : Breaks w context (.elements construct) us after items) :
    Breaks w context (.elements construct) (nl ++ (ts ++ (nl' ++ comma :: us))) after
      (item :: items) := by
  intro before hw hsituated
  have hitem : Reads context (.expression 0) (w.body ts)
      (w.put (nl' ++ comma :: (us ++ after))) item :=
    ih (before ++ nl) (by simpa using hw) (.inl (not_endsValue_newlines hsituated hnl))
  have hrest := ihrest ((before ++ (nl ++ (ts ++ nl'))) ++ [comma]) (by simpa using hw)
    (not_endsValue_concat (by rw [hcomma]; rfl) _)
  rw [put_append, put, put_append, w.put_eq after, ← List.append_assoc,
    ← List.append_assoc (w.put us)] at hitem
  have helements : Reads context (.elements construct) ((w.put nl ++ w.lead ts) ++
      (w.body ts ++ ((w.put nl' ++ w.mark comma) ++ w.place comma :: (w.put us ++ w.lead after))))
      (w.body after) (item :: items) :=
    .moreElements (w.newlines_put_append hnl ts) hitem (w.newlines_put_mark hnl' comma) hcomma hrest
  exact helements.of_eq (by simp [put_append, put_eq ts, put])

theorem noEntries {after : List (Token σ)}
    (hafter : ∀ k, headKind after = some k → k = .symbol .closeBrace) :
    Breaks w context .entries [] after [] := by
  intro before hw _
  exact .noEntries (by rwa [headKind_body])

theorem lastEntry {key value : Expr σ} {arrow : Token σ}
    {nl₁ nl₂ nl₃ ts us after : List (Token σ)}
    (hkey : Reads context (.expression 0) ts
      (nl₁ ++ arrow :: (nl₂ ++ (us ++ (nl₃ ++ after)))) key) (hnl₁ : Newlines nl₁)
    (harrow : arrow.kind = .symbol .arrow) (hnl₂ : Newlines nl₂) (hnl₃ : Newlines nl₃)
    (hnewline : headKind after ≠ some .newline) (hcomma : headKind after ≠ some (.symbol .comma))
    (ihkey : Breaks w context (.expression 0) ts
      (nl₁ ++ arrow :: (nl₂ ++ (us ++ (nl₃ ++ after)))) key)
    (ihvalue : Breaks w context (.expression 0) us (nl₃ ++ after) value) :
    Breaks w context .entries (ts ++ (nl₁ ++ arrow :: (nl₂ ++ (us ++ nl₃)))) after
      [⟨key, value⟩] := by
  intro before hw hsituated
  have hkey' : Reads context (.expression 0) (w.body ts)
      (w.put (nl₁ ++ arrow :: (nl₂ ++ (us ++ (nl₃ ++ after))))) key :=
    ihkey before (by simpa using hw) (.inl hsituated)
  have hvalue : Reads context (.expression 0) (w.body us) (w.put (nl₃ ++ after)) value :=
    ihvalue ((before ++ (ts ++ nl₁)) ++ arrow :: nl₂) (by simpa using hw)
      (.inl (not_endsValue_cons (by rw [harrow]; rfl) hnl₂ _))
  have hentries : Reads context .entries (w.body ts ++ ((w.put nl₁ ++ w.mark arrow) ++
      w.place arrow :: ((w.put nl₂ ++ w.lead us) ++ (w.body us ++ (w.put nl₃ ++ w.lead after)))))
      (w.body after) [⟨key, value⟩] :=
    .lastEntry (by simpa [put_append, put, put_eq us, put_eq after] using hkey')
      (w.newlines_put_mark hnl₁ arrow) harrow (w.newlines_put_append hnl₂ us)
      (by simpa [put_append, put_eq after] using hvalue) (w.newlines_put_append hnl₃ after)
      (by rwa [headKind_body]) (by rwa [headKind_body])
  have hne : ts ≠ [] := hkey.opens.ne_nil
  have hne' : ts ++ (nl₁ ++ arrow :: (nl₂ ++ (us ++ nl₃))) ≠ [] := by simp
  refine hentries.of_eq ?_
  rw [trunk_of_ne_nil hne', body_append hne]
  simp [put_append, put, put_eq us]

/-- Line breaks around the arrow and the comma are skipped. -/
theorem moreEntries {key value : Expr σ} {found : List (Entry σ)} {arrow comma : Token σ}
    {nl₁ nl₂ nl₃ nl₄ ts us vs after : List (Token σ)}
    (hkey : Reads context (.expression 0) ts
      (nl₁ ++ arrow :: (nl₂ ++ (us ++ (nl₃ ++ comma :: (nl₄ ++ (vs ++ after)))))) key)
    (hnl₁ : Newlines nl₁) (harrow : arrow.kind = .symbol .arrow) (hnl₂ : Newlines nl₂)
    (hnl₃ : Newlines nl₃) (hcomma : comma.kind = .symbol .comma) (hnl₄ : Newlines nl₄)
    (hnewline : headKind (vs ++ after) ≠ some .newline)
    (ihkey : Breaks w context (.expression 0) ts
      (nl₁ ++ arrow :: (nl₂ ++ (us ++ (nl₃ ++ comma :: (nl₄ ++ (vs ++ after)))))) key)
    (ihvalue : Breaks w context (.expression 0) us
      (nl₃ ++ comma :: (nl₄ ++ (vs ++ after))) value)
    (ihrest : Breaks w context .entries vs after found) :
    Breaks w context .entries
      (ts ++ (nl₁ ++ arrow :: (nl₂ ++ (us ++ (nl₃ ++ comma :: (nl₄ ++ vs)))))) after
      (⟨key, value⟩ :: found) := by
  intro before hw hsituated
  have hkey' : Reads context (.expression 0) (w.body ts) (w.put (nl₁ ++ arrow ::
      (nl₂ ++ (us ++ (nl₃ ++ comma :: (nl₄ ++ (vs ++ after))))))) key :=
    ihkey before (by simpa using hw) (.inl hsituated)
  have hvalue : Reads context (.expression 0) (w.body us)
      (w.put (nl₃ ++ comma :: (nl₄ ++ (vs ++ after)))) value :=
    ihvalue ((before ++ (ts ++ nl₁)) ++ arrow :: nl₂) (by simpa using hw)
      (.inl (not_endsValue_cons (by rw [harrow]; rfl) hnl₂ _))
  have hrest := ihrest ((before ++ (ts ++ (nl₁ ++ arrow :: (nl₂ ++ (us ++ nl₃))))) ++ comma :: nl₄)
    (by simpa using hw) (not_endsValue_cons (by rw [hcomma]; rfl) hnl₄ _)
  have hnewline' : headKind (w.trunk vs after ++ w.body after) ≠ some .newline := by
    rwa [trunk_body, headKind_body]
  -- the rest of the entries begins with no line break, so one before it belongs to the comma
  have hsplit : w.put vs ++ w.put after
      = w.lead (vs ++ after) ++ (w.trunk vs after ++ w.body after) := by
    rw [trunk_body, ← put_eq, put_append]
  have hentries : Reads context .entries (w.body ts ++ ((w.put nl₁ ++ w.mark arrow) ++
      w.place arrow :: ((w.put nl₂ ++ w.lead us) ++ (w.body us ++ ((w.put nl₃ ++ w.mark comma) ++
        w.place comma :: ((w.put nl₄ ++ w.lead (vs ++ after)) ++ w.trunk vs after))))))
      (w.body after) (⟨key, value⟩ :: found) :=
    .moreEntries (by simpa [put_append, put, put_eq us, hsplit] using hkey')
      (w.newlines_put_mark hnl₁ arrow) harrow (w.newlines_put_append hnl₂ us)
      (by simpa [put_append, put, hsplit] using hvalue) (w.newlines_put_mark hnl₃ comma) hcomma
      (w.newlines_put_append hnl₄ (vs ++ after)) hnewline' hrest
  have hne : ts ≠ [] := hkey.opens.ne_nil
  have hne' : ts ++ (nl₁ ++ arrow :: (nl₂ ++ (us ++ (nl₃ ++ comma :: (nl₄ ++ vs))))) ≠ [] := by simp
  refine hentries.of_eq ?_
  rw [trunk_of_ne_nil hne', body_append hne]
  simp [put_append, put, put_eq us, ← lead_trunk vs after]

theorem arguments {opener closer : Token σ} {args : List (Expr σ)} {ts after : List (Token σ)}
    (hopener : opener.kind = .symbol .openParen) (hcloser : closer.kind = .symbol .closeParen)
    (ih : Breaks w context (.elements .argumentList) ts (closer :: after) args) :
    Breaks w context .arguments (opener :: (ts ++ [closer])) after args := by
  intro before hw hsituated
  have hmark : w.mark opener = [] := mark_of_not_breakable (by simpa using hw)
    (not_breakable_of_endsValue hsituated (by rw [hopener]; rfl) (by rw [hopener]; nofun))
  have hargs : Reads context (.elements .argumentList) (w.put ts ++ w.mark closer)
      (w.place closer :: w.put after) args :=
    ih (before ++ [opener]) (by simpa using hw)
      (not_endsValue_concat (by rw [hopener]; rfl) before)
  exact (Reads.arguments hopener hargs hcloser).of_eq (by
    rw [put_cons hmark]
    simp [put_append, put])

theorem bareArguments {first : Expr σ} {rest : List (Expr σ)} {ts us after : List (Token σ)}
    (hfirst : Reads context (.expression 0) ts (us ++ after) first)
    (ihfirst : Breaks w context (.expression 0) ts (us ++ after) first)
    (ihrest : Breaks w context .moreBareArguments us after rest) :
    Breaks w context .bareArguments (ts ++ us) after (first :: rest) := by
  intro before hw hunmarked
  have hfirst' : Reads context (.expression 0) (w.body ts) (w.put (us ++ after)) first :=
    ihfirst before (by simpa using hw) (.inr (Unmarked.left hunmarked))
  have hrest := ihrest (before ++ ts) (by simpa using hw)
    (Unmarked.right hunmarked hfirst.settles.closed)
  rw [put_append] at hfirst'
  exact (Reads.bareArguments hfirst' hrest).of_eq (body_append hfirst.opens.ne_nil us)

theorem moreArguments {comma : Token σ} {first : Expr σ} {rest : List (Expr σ)}
    {nl ts us after : List (Token σ)} (hcomma : comma.kind = .symbol .comma) (hnl : Newlines nl)
    (hfirst : Reads context (.expression 0) ts (us ++ after) first)
    (ihfirst : Breaks w context (.expression 0) ts (us ++ after) first)
    (ihrest : Breaks w context .moreBareArguments us after rest) :
    Breaks w context .moreBareArguments (comma :: (nl ++ (ts ++ us))) after (first :: rest) := by
  intro before hw hunmarked
  have hmark : w.mark comma = [] := Unmarked.lead hunmarked
  have hfirst' : Reads context (.expression 0) (w.body ts) (w.put (us ++ after)) first :=
    ihfirst (before ++ comma :: nl) (by simpa using hw)
      (.inl (not_endsValue_cons (by rw [hcomma]; rfl) hnl before))
  have hclosed : level 0 (comma :: (nl ++ ts)) = some 0 := by
    rw [level_inner (by rw [hcomma]; rfl), level_append, (Balanced.newlines hnl).level,
      Option.bind_some, hfirst.settles.closed]
  have hunmarked' : w.Unmarked ((comma :: (nl ++ ts)) ++ us) := by
    rw [List.cons_append, List.append_assoc]
    exact hunmarked
  have hrest := ihrest (before ++ comma :: (nl ++ ts)) (by simpa using hw)
    (hunmarked'.right hclosed)
  rw [put_append] at hfirst'
  exact (Reads.moreArguments hcomma (w.newlines_put_append hnl ts) hfirst' hrest).of_eq
    (by simp [put_cons hmark, put_append, put_eq ts])

/-! ## calls -/

theorem call {t : Token σ} {name : String} {value : Expr σ} {ts after : List (Token σ)}
    (ht : t.kind = .name name) (ih : Breaks w context (.callOf ⟨name, t.span⟩) ts after value) :
    Breaks w context .callOrWord (t :: ts) after value := by
  intro before hw _
  have hcall : Reads context (.callOf ⟨name, t.span⟩) (w.put ts) (w.put after) value :=
    ih (before ++ [t]) (by simpa using hw) (endsValue_concat (by rw [ht]; rfl) before)
  have hword : Reads context .callOrWord (w.place t :: w.put ts) (w.put after) value :=
    .call ht hcall
  exact hword

theorem callOf {callee : Ident σ} {args : List (Expr σ)} {lambda : Option (Lambda σ)}
    {ts us after : List (Token σ)} (hargs : Reads context .arguments ts (us ++ after) args)
    (ihargs : Breaks w context .arguments ts (us ++ after) args)
    (ihlambda : Breaks w context .optionalLambda us after lambda) :
    Breaks w context (.callOf callee) (ts ++ us) after
      (.call (through callee.span (ts ++ us)) callee args lambda) := by
  intro before hw hsituated
  have hbehind : BehindCall (before ++ ts) :=
    .inl (by rw [lastKind_append, hargs.lastKind_arguments])
  have hargs' : Reads context .arguments (w.put ts) (w.put (us ++ after)) args :=
    ihargs before (by simpa using hw) hsituated
  have hlambda := ihlambda (before ++ ts) (by simpa using hw) hbehind
  rw [put_append] at hargs'
  have hcall : Reads context (.callOf callee) (w.put ts ++ w.put us) (w.put after)
      (.call (through callee.span (w.put ts ++ w.put us)) callee args lambda) :=
    .callOf hargs' hlambda
  rwa [← put_append, through_put] at hcall

theorem lambdaNoList {t : Token σ} {lambda : Lambda σ} {ts after : List (Token σ)}
    (ht : t.kind = .symbol .pipePipe)
    (ih : Breaks w context (.lambdaBody t.span []) ts after lambda) :
    Breaks w context .lambda (t :: ts) after lambda := by
  intro before hw hbehind
  have hmark : w.mark t = [] := mark_of_not_breakable (by simpa using hw)
    (not_breakable_of_behindCall hbehind (by rw [ht]; rfl))
  have hbody := ih (before ++ [t]) (by simpa using hw) trivial
  exact (Reads.lambdaNoList ht hbody).of_eq (put_cons hmark)

/-- Line breaks behind the bars are skipped. -/
theorem lambda {opener closer : Token σ} {params : List (Ident σ)} {lambda : Lambda σ}
    {ts us after : List (Token σ)} (hopener : opener.kind = .symbol .pipe)
    (hcloser : closer.kind = .symbol .pipe)
    (ihparams : Breaks w context (.parameters opener.span) ts (closer :: (us ++ after)) params)
    (ihbody : Breaks w context (.lambdaBody opener.span params) us after lambda) :
    Breaks w context .lambda (opener :: (ts ++ closer :: us)) after lambda := by
  intro before hw hbehind
  have hmark : w.mark opener = [] := mark_of_not_breakable (by simpa using hw)
    (not_breakable_of_behindCall hbehind (by rw [hopener]; rfl))
  have hparams : Reads context (.parameters opener.span) (w.put ts ++ w.mark closer)
      (w.place closer :: w.put (us ++ after)) params :=
    ihparams (before ++ [opener]) (by simpa using hw) trivial
  have hbody := ihbody (before ++ opener :: (ts ++ [closer])) (by simpa using hw) trivial
  rw [put_append] at hparams
  exact (Reads.lambda hopener hparams hcloser hbody).of_eq (by
    rw [put_cons hmark]
    simp [put_append, put])

theorem lambdaBody {opener : σ} {params : List (Ident σ)} {body : Block σ}
    {nl ts after : List (Token σ)} (hnl : Newlines nl)
    (ih : Breaks w context (.block .lambdaBody) ts after body) :
    Breaks w context (.lambdaBody opener params) (nl ++ ts) after
      ⟨through opener ts, params, body⟩ := by
  intro before hw _
  have hbody := ih (before ++ nl) (by simpa using hw) rfl
  have hlambda : Reads context (.lambdaBody opener params)
      ((w.put nl ++ w.lead ts) ++ w.body ts) (w.put after)
      ⟨through opener (w.body ts), params, body⟩ :=
    .lambdaBody (w.newlines_put_append hnl ts) hbody
  rw [through_body] at hlambda
  exact hlambda.of_eq (by rw [put_append, put_eq ts, List.append_assoc])

/-- In a body no line is broken but inside of brackets. -/
theorem block {construct : Construct} {opener closer : Token σ} {stmts : List (Stmt σ)}
    {ts after : List (Token σ)} (hopener : opener.kind = .symbol .openBrace)
    (hstmts : Reads context .statements ts (closer :: after) stmts)
    (hcloser : closer.kind = .symbol construct.closer)
    (ih : Breaks w context .statements ts (closer :: after) stmts) :
    Breaks w context (.block construct) (opener :: (ts ++ [closer])) after
      ⟨Location.merge opener.span closer.span, stmts⟩ := by
  intro before hw hbrace
  have hsituated : w.Unmarked ts ∨ Newlines ts :=
    unmarked_of_block (by simpa using hw) hopener hstmts.settles.closed hstmts.settles.plain
      (hcloser.trans (congrArg Kind.symbol hbrace))
  have hstmts' : Reads context .statements (w.put ts ++ w.mark closer)
      (w.place closer :: w.put after) stmts :=
    ih (before ++ [opener]) (by simpa using hw) hsituated
  have hblock : Reads context (.block construct)
      (w.place opener :: ((w.put ts ++ w.mark closer) ++ [w.place closer])) (w.put after)
      ⟨Location.merge opener.span closer.span, stmts⟩ := .block hopener hstmts' hcloser
  exact hblock.of_eq (by simp [body, put_append, put])

/-! ## statements -/

theorem noStatements {seps after : List (Token σ)} (hseps : Separators seps)
    (hafter : ∀ k, headKind after = some k → k = .symbol .closeBrace) :
    Breaks w context .statements seps after [] := by
  intro before hw _
  exact .noStatements (w.separators_put_append hseps after) (by rwa [headKind_body])

theorem moreStatements {first : Stmt σ} {rest : List (Stmt σ)}
    {seps ts us after : List (Token σ)} (hseps : Separators seps)
    (hfirst : Reads context .statement ts (us ++ after) first)
    (hcomma : headKind (us ++ after) ≠ some (.symbol .comma))
    (ihfirst : Breaks w context .statement ts (us ++ after) first)
    (ihrest : Breaks w context .statements us after rest) :
    Breaks w context .statements (seps ++ (ts ++ us)) after (first :: rest) := by
  intro before hw hsituated
  have hunmarked : w.Unmarked (ts ++ us) := by
    obtain hunmarked | hnewlines := hsituated
    · exact Unmarked.right hunmarked ((Outside.separators hseps).balanced.level 0)
    · obtain ⟨t, vs, rfl, ht⟩ : BeginsWith beginsStatement ts := hfirst.opens
      rw [eq_of_beq (hnewlines t (by simp))] at ht
      cases ht
  have hfirst' : Reads context .statement (w.body ts) (w.put (us ++ after)) first :=
    ihfirst (before ++ seps) (by simpa using hw) hunmarked.left
  have hrest := ihrest ((before ++ seps) ++ ts) (by simpa using hw)
    (.inl (hunmarked.right hfirst.settles.closed))
  have hcomma : headKind ((w.put us ++ w.lead after) ++ w.body after) ≠ some (.symbol .comma) := by
    rw [List.append_assoc, ← put_eq, ← put_append]
    exact headKind_put_ne hcomma rfl
  rw [put_append, w.put_eq after, ← List.append_assoc] at hfirst'
  exact (Reads.moreStatements (w.separators_put_append hseps ts) hfirst' hcomma hrest).of_eq
    (by simp [put_append, put_eq ts])

theorem branching {sense : Sense} {stmt : Stmt σ} {t : Token σ} {ts after : List (Token σ)}
    (ht : t.kind = .keyword .ifWord ∧ sense = .ifTrue ∨
      t.kind = .keyword .unlessWord ∧ sense = .unlessTrue)
    (ih : Breaks w context (.conditional sense) (t :: ts) after stmt) :
    Breaks w context .statement (t :: ts) after stmt := by
  intro before hw _
  have hstmt : Reads context (.conditional sense) (w.place t :: w.put ts) (w.put after) stmt :=
    ih before hw trivial
  have hbranching : Reads context .statement (w.place t :: w.put ts) (w.put after) stmt :=
    .branching ht hstmt
  exact hbranching

theorem callableValue {expr : Expr σ} {stmt : Stmt σ} {ts us after : List (Token σ)}
    (hcallable : Reads context .callable ts (us ++ after) (.value expr))
    (ih : Breaks w context .callable ts (us ++ after) (.value expr))
    (ihstmt : Breaks w context (.valueStatement expr) us after stmt) :
    Breaks w context .statement (ts ++ us) after stmt := by
  intro before hw hunmarked
  have hends : EndsValue (before ++ ts) := hcallable.ends.prepend before
  have hcallable' : Reads context .callable (w.body ts) (w.put (us ++ after)) (.value expr) :=
    ih before (by simpa using hw) (Unmarked.left hunmarked)
  have hstmt := ihstmt (before ++ ts) (by simpa using hw) hends
  rw [put_append] at hcallable'
  exact (Reads.callableValue hcallable' hstmt).of_eq (body_append hcallable.opens.ne_nil us)

theorem value {expr : Expr σ} {stmt : Stmt σ} {ts us after : List (Token σ)}
    (hname : ∀ name, headKind ts ≠ some (.name name))
    (hexpr : Reads context (.expression 0) ts (us ++ after) expr)
    (ih : Breaks w context (.expression 0) ts (us ++ after) expr)
    (ihstmt : Breaks w context (.valueStatement expr) us after stmt) :
    Breaks w context .statement (ts ++ us) after stmt := by
  intro before hw hunmarked
  have hends : EndsValue (before ++ ts) := hexpr.ends.prepend before
  have hexpr' : Reads context (.expression 0) (w.body ts) (w.put (us ++ after)) expr :=
    ih before (by simpa using hw) (.inr (Unmarked.left hunmarked))
  have hstmt := ihstmt (before ++ ts) (by simpa using hw) hends
  rw [put_append] at hexpr'
  exact (Reads.value (by simpa [headKind_body] using hname) hexpr' hstmt).of_eq
    (body_append hexpr.opens.ne_nil us)

theorem assignment {target value : Expr σ} {t : Token σ} {nl ts after : List (Token σ)}
    (ht : t.kind = .symbol .assign) (htarget : target.isAssignable = true) (hnl : Newlines nl)
    (ih : Breaks w context (.expression 0) ts after value) :
    Breaks w context (.valueStatement target) (t :: (nl ++ ts)) after
      (.assign (Location.merge target.span value.span) target value) := by
  intro before hw hsituated
  have hmark : w.mark t = [] := mark_of_not_breakable (by simpa using hw)
    (not_breakable_of_endsValue hsituated (by rw [ht]; rfl) (by rw [ht]; nofun))
  have hvalue := ih (before ++ t :: nl) (by simpa using hw)
    (.inl (not_endsValue_cons (by rw [ht]; rfl) hnl before))
  exact (Reads.assignment ht htarget (w.newlines_put_append hnl ts) hvalue).of_eq
    (by simp [put_cons hmark, put_append, put_eq ts])

/-- A condition begins on the line of its word, and its branch on that of the condition. -/
theorem conditional {sense : Sense} {t : Token σ} {condition : Expr σ} {thenBranch : Block σ}
    {elseBranch : Option (Block σ)} {ts us vs after : List (Token σ)}
    (ht : opensCondition sense t.kind = true)
    (hcondition : Reads context (.expression 0) ts (us ++ (vs ++ after)) condition)
    (hthen : Reads context (.block (Grammar.branchConstruct sense)) us (vs ++ after) thenBranch)
    (ihcondition : Breaks w context (.expression 0) ts (us ++ (vs ++ after)) condition)
    (ihthen : Breaks w context (.block (Grammar.branchConstruct sense)) us (vs ++ after)
      thenBranch)
    (ihelse : Breaks w context (.alternative sense) vs after elseBranch) :
    Breaks w context (.conditional sense) (t :: (ts ++ (us ++ vs))) after
      (.conditional (through t.span (ts ++ (us ++ vs))) sense condition thenBranch
        elseBranch) := by
  intro before hw _
  obtain ⟨hends, hbehind, hoperator⟩ := Kind.endsValue_of_opensCondition ht
  have hvalue : EndsValue ((before ++ [t]) ++ ts) := hcondition.ends.prepend _
  have hlead : w.lead ts = [] :=
    lead_of_begins (by simpa using hw) hcondition.opens Kind.breaksBefore_of_beginsExpression
      fun _ => not_breakable_concat hbehind hoperator
  have hlead' : w.lead us = [] :=
    lead_of_begins (by simpa using hw) hthen.opens Kind.breaksBefore_of_isBrace
      fun _ => not_breakable_of_endsValue hvalue
  have hcondition' : Reads context (.expression 0) (w.body ts) (w.put (us ++ (vs ++ after)))
      condition :=
    ihcondition (before ++ [t]) (by simpa using hw) (.inl (not_endsValue_concat hends before))
  have hthen' : Reads context (.block (Grammar.branchConstruct sense)) (w.body us)
      (w.put (vs ++ after)) thenBranch :=
    ihthen (before ++ t :: ts) (by simpa using hw) (Grammar.closer_branchConstruct sense)
  have helse := ihelse (before ++ t :: (ts ++ us)) (by simpa using hw) trivial
  rw [← put_of_lead hlead] at hcondition'
  rw [← put_of_lead hlead'] at hthen'
  simp only [put_append] at hcondition' hthen'
  have hconditional : Reads context (.conditional sense)
      (w.place t :: (w.put ts ++ (w.put us ++ w.put vs))) (w.put after)
      (.conditional (through t.span (w.put ts ++ (w.put us ++ w.put vs))) sense condition
        thenBranch elseBranch) := .conditional ht hcondition' hthen' helse
  rw [← put_append, ← put_append, through_put] at hconditional
  exact hconditional

theorem elsifAlternative {nested : Stmt σ} {t : Token σ} {nl ts after : List (Token σ)}
    (hnl : Newlines nl) (ht : t.kind = .keyword .elsifWord)
    (ih : Breaks w context (.conditional .ifTrue) (t :: ts) after nested) :
    Breaks w context (.alternative .ifTrue) (nl ++ t :: ts) after
      (some ⟨nested.span, [nested]⟩) := by
  intro before hw _
  have hnested : Reads context (.conditional .ifTrue) (w.place t :: w.put ts) (w.put after)
      nested := ih (before ++ nl) (by simpa using hw) trivial
  have helsif : Reads context (.alternative .ifTrue)
      ((w.put nl ++ w.mark t) ++ w.place t :: w.put ts) (w.put after)
      (some ⟨nested.span, [nested]⟩) :=
    .elsifAlternative (w.newlines_put_mark hnl t) ht hnested
  exact helsif.of_eq (by simp [put_append, put])

theorem elseAlternative {sense : Sense} {body : Block σ} {t : Token σ}
    {nl ts after : List (Token σ)} (hnl : Newlines nl) (ht : t.kind = .keyword .elseWord)
    (hbody : Reads context (.block .elseBody) ts after body)
    (ih : Breaks w context (.block .elseBody) ts after body) :
    Breaks w context (.alternative sense) (nl ++ t :: ts) after (some body) := by
  intro before hw _
  have hw' : w.tokens = ((before ++ nl) ++ [t]) ++ (ts ++ after) := by simpa using hw
  have hlead : w.lead ts = [] :=
    lead_of_begins hw' hbody.opens Kind.breaksBefore_of_isBrace
      fun _ => not_breakable_concat (by rw [ht]; rfl) (by rw [ht]; rfl)
  have hbody' : Reads context (.block .elseBody) (w.body ts) (w.put after) body :=
    ih ((before ++ nl) ++ [t]) (by simpa using hw) rfl
  have helse : Reads context (.alternative sense)
      ((w.put nl ++ w.mark t) ++ w.place t :: w.body ts) (w.put after) (some body) :=
    .elseAlternative (w.newlines_put_mark hnl t) ht hbody'
  exact helse.of_eq (by simp [put_append, put, put_of_lead hlead])

theorem wholeCall {t : Token σ} {name : String} {call : Expr σ} {span : σ} {callee : Ident σ}
    {args : List (Expr σ)} {lambda : Option (Lambda σ)} {ts us after : List (Token σ)}
    (ht : t.kind = .name name)
    (hcall : Reads context (.callOf ⟨name, t.span⟩) ts (us ++ after) call)
    (hafter : headKind after ≠ some (.symbol .assign))
    (ihcall : Breaks w context (.callOf ⟨name, t.span⟩) ts (us ++ after) call)
    (ihrest : Breaks w context (.continued call) us after (.call span callee args lambda)) :
    Breaks w context .callable (t :: (ts ++ us)) after
      (.statement (.invoke span callee args lambda)) := by
  intro before hw _
  have hends : EndsValue ((before ++ [t]) ++ ts) := hcall.ends.prepend _
  have hcall' : Reads context (.callOf ⟨name, t.span⟩) (w.put ts) (w.put (us ++ after)) call :=
    ihcall (before ++ [t]) (by simpa using hw) (endsValue_concat (by rw [ht]; rfl) before)
  have hrest := ihrest ((before ++ [t]) ++ ts) (by simpa using hw) hends
  rw [put_append] at hcall'
  have hwhole : Reads context .callable (w.place t :: (w.put ts ++ w.put us)) (w.put after)
      (.statement (.invoke span callee args lambda)) :=
    .wholeCall ht hcall' hrest (headKind_put_ne hafter rfl)
  rwa [← put_append] at hwhole

/-- A call is still followed by what it was followed by. -/
theorem callValue {t : Token σ} {name : String} {call whole : Expr σ}
    {ts us after : List (Token σ)} (ht : t.kind = .name name)
    (hwhole : (∃ span callee args lambda, whole = .call span callee args lambda) →
      headKind after = some (.symbol .assign))
    (hcall : Reads context (.callOf ⟨name, t.span⟩) ts (us ++ after) call)
    (hrest : Reads context (.continued call) us after whole)
    (ihcall : Breaks w context (.callOf ⟨name, t.span⟩) ts (us ++ after) call)
    (ihrest : Breaks w context (.continued call) us after whole) :
    Breaks w context .callable (t :: (ts ++ us)) after (.value whole) := by
  intro before hw _
  have hends : EndsValue ((before ++ [t]) ++ ts) := hcall.ends.prepend _
  have hends' : EndsValue ((before ++ [t]) ++ (ts ++ us)) :=
    (hcall.ends.append hrest.ends).prepend _
  have hcall' : Reads context (.callOf ⟨name, t.span⟩) (w.put ts) (w.put (us ++ after)) call :=
    ihcall (before ++ [t]) (by simpa using hw) (endsValue_concat (by rw [ht]; rfl) before)
  have hrest' := ihrest ((before ++ [t]) ++ ts) (by simpa using hw) hends
  -- before the sign of an assignment a value has ended, so none of the line breaks is there
  have hw' : w.tokens = ((before ++ [t]) ++ (ts ++ us)) ++ (after ++ []) := by simpa using hw
  have hassign (hcall : ∃ span callee args lambda, whole = .call span callee args lambda) :
      headKind (w.put after) = some (.symbol .assign) := by
    have hhead := hwhole hcall
    have hlead : w.lead after = [] := by
      refine lead_of_not_breakable hw' fun k hk => ?_
      obtain rfl := Option.some.inj (hhead.symm.trans hk)
      exact not_breakable_of_endsValue hends' rfl nofun
    rw [put_of_lead hlead, headKind_body, hhead]
  rw [put_append] at hcall'
  have hvalue : Reads context .callable (w.place t :: (w.put ts ++ w.put us)) (w.put after)
      (.value whole) := .callValue ht hcall' hrest' hassign
  rwa [← put_append] at hvalue

/-- A name is still followed by the first of its arguments. -/
theorem bareCall {t : Token σ} {name : String} {args : List (Expr σ)}
    {ts after : List (Token σ)} (ht : t.kind = .name name)
    (hbegins :
      Grammar.beginsArgument (headKind (ts ++ after)) (headTouches (ts ++ after)) = true)
    (hargs : Reads context .bareArguments ts after args)
    (hcount : args.length ≤ 1 ∨ name ∈ context.calls)
    (ih : Breaks w context .bareArguments ts after args) :
    Breaks w context .callable (t :: ts) after
      (.statement (.invoke (through t.span ts) ⟨name, t.span⟩ args none)) := by
  intro before hw hunmarked
  obtain ⟨u, vs, rfl, -⟩ : BeginsWith beginsExpression ts := hargs.opens
  have hunmarked' : w.Unmarked (u :: vs) := Unmarked.tail hunmarked (by rw [ht]; rfl)
  have hmark : w.mark u = [] := hunmarked'.lead
  have hargs' : Reads context .bareArguments (w.place u :: w.put vs) (w.put after) args :=
    ih (before ++ [t]) (by simpa using hw) hunmarked'
  rw [place_of_mark hmark] at hargs'
  have hcall : Reads context .callable (w.place t :: (u :: w.put vs)) (w.put after)
      (.statement (.invoke (through t.span (u :: w.put vs)) ⟨name, t.span⟩ args none)) :=
    .bareCall ht hbegins hargs' hcount
  rwa [← put_cons hmark, through_put] at hcall

/-- A name that no argument follows is still followed by none. -/
theorem wordValue {t : Token σ} {name : String} {whole : Expr σ} {ts after : List (Token σ)}
    (ht : t.kind = .name name) (hparen : headKind (ts ++ after) ≠ some (.symbol .openParen))
    (hbegins :
      Grammar.beginsArgument (headKind (ts ++ after)) (headTouches (ts ++ after)) = false)
    (ih : Breaks w context (.continued (.word t.span name)) ts after whole) :
    Breaks w context .callable (t :: ts) after (.value whole) := by
  intro before hw _
  have hparen' : headKind (w.put ts ++ w.put after) ≠ some (.symbol .openParen) := by
    rw [← put_append]
    exact headKind_put_ne hparen rfl
  have hbegins' : Grammar.beginsArgument (headKind (w.put ts ++ w.put after))
      (headTouches (w.put ts ++ w.put after)) = false := by
    rw [← put_append]
    obtain hhead | hhead := w.head_put (ts ++ after)
    · rwa [headKind, headTouches, hhead]
    · rw [headKind, hhead, Option.map_some, w.added_kind]
      rfl
  have hrest := ih (before ++ [t]) (by simpa using hw) (endsValue_concat (by rw [ht]; rfl) before)
  have hword : Reads context .callable (w.place t :: w.put ts) (w.put after) (.value whole) :=
    .wordValue ht hparen' hbegins' hrest
  exact hword

theorem continued {first left value : Expr σ} {ts us after : List (Token σ)}
    (hleft : Reads context (.suffixes first) ts (us ++ after) left)
    (ihleft : Breaks w context (.suffixes first) ts (us ++ after) left)
    (ihrest : Breaks w context (.operators 0 left) us after value) :
    Breaks w context (.continued first) (ts ++ us) after value := by
  intro before hw hsituated
  have hends : EndsValue (before ++ ts) := EndsValue.append hsituated hleft.ends
  have hleft' : Reads context (.suffixes first) (w.put ts) (w.put (us ++ after)) left :=
    ihleft before (by simpa using hw) hsituated
  have hrest := ihrest (before ++ ts) (by simpa using hw) hends
  rw [put_append] at hleft'
  exact (Reads.continued hleft' hrest).of_eq (put_append ts us)

/-! ## source units -/

theorem noProgram {ts : List (Token σ)} (ih : Breaks w context .statements ts [] []) :
    Breaks w context .program ts [] ⟨⟨(Cursor.start ts).place context.finish, []⟩⟩ := by
  rintro _ hw rfl
  have hunmarked : w.Unmarked ts := unmarked_of_tokens (by simpa using hw)
  have hstmts : Reads context .statements (w.put ts ++ []) [] [] := ih [] hw (.inl hunmarked)
  rw [List.append_nil] at hstmts
  have hprogram : Reads context .program (w.put ts) []
      ⟨⟨(Cursor.start (w.put ts)).place context.finish, []⟩⟩ := .noProgram hstmts
  rwa [place_put_of_lead hunmarked.lead] at hprogram

theorem program {stmts : List (Stmt σ)} {ts : List (Token σ)} (hne : stmts ≠ [])
    (ih : Breaks w context .statements ts [] stmts) :
    Breaks w context .program ts []
      ⟨⟨through ((Cursor.start ts).place context.finish) ts, stmts⟩⟩ := by
  rintro _ hw rfl
  have hunmarked : w.Unmarked ts := unmarked_of_tokens (by simpa using hw)
  have hstmts : Reads context .statements (w.put ts ++ []) [] stmts := ih [] hw (.inl hunmarked)
  rw [List.append_nil] at hstmts
  have hprogram : Reads context .program (w.put ts) []
      ⟨⟨through ((Cursor.start (w.put ts)).place context.finish) (w.put ts), stmts⟩⟩ :=
    .program hstmts hne
  rwa [place_put_of_lead hunmarked.lead, through_put] at hprogram

end Phrase.Breaks

/-- A phrase without tokens ends before a line break as well. -/
theorem Reads.before_put {w : Breaking σ} {context : Context σ} {p : Phrase σ}
    {after : List (Token σ)} {v : p.Value} (h : Reads context p [] after v)
    (haccepts : p.Accepts after (w.put after) v) : Reads context p (w.put []) (w.put after) v :=
  h.before rfl (calmer_put after) haccepts

/-- Wherever a phrase stands, it derives with the line breaks. -/
theorem Reads.breaks {w : Breaking σ} {context : Context σ} {p : Phrase σ}
    {ts after : List (Token σ)} {v : p.Value} (h : Reads context p ts after v) :
    p.Breaks w context ts after v := by
  induction h with
  | noParameters hnl hafter => exact .noParameters hnl hafter
  | lastParameter hnl ht hnl' hafter => exact .lastParameter hnl ht hnl' hafter
  | moreParameters hnl ht hnl' hcomma _ ih => exact .moreParameters hnl ht hnl' hcomma ih
  | expression hleft _ ihleft ihrest => exact .expression hleft ihleft ihrest
  | noOperator hafter => exact fun _ _ _ => (Reads.noOperator hafter).before_put trivial
  | operator ht hlevel hnl hright _ ihright ihrest =>
    exact .operator ht hlevel hnl hright ihright ihrest
  | sign ht hinner ih => exact .sign ht hinner ih
  | operand hfirst _ ihfirst ihrest => exact .operand hfirst ihfirst ihrest
  | noSuffix hdot hbracket => exact fun _ _ _ => (Reads.noSuffix hdot hbracket).before_put trivial
  | method hdot ht hargs hlambda _ ihargs ihlambda ihrest =>
    exact .method hdot ht hargs hlambda ihargs ihlambda ihrest
  | access hopener htouching _ hcloser hne _ ihkeys ihrest =>
    exact .access hopener htouching hcloser hne ihkeys ihrest
  | var ht => exact fun _ _ _ => .var ht
  | reference ht => exact fun _ _ _ => .reference ht
  | literal ht => exact fun _ _ _ => .literal ht
  | name _ ih => exact fun before hw _ => .name (ih before hw trivial)
  | array hopener _ hcloser ih => exact .array hopener hcloser ih
  | hash hopener hnl _ hcloser ih => exact .hash hopener hnl hcloser ih
  | parentheses hopener hnl _ hnl' hcloser ih => exact .parentheses hopener hnl hnl' hcloser ih
  | noElements hnl hafter => exact .noElements hnl hafter
  | lastElement hnl _ hnl' hnewline hcomma ih => exact .lastElement hnl hnl' hnewline hcomma ih
  | moreElements hnl _ hnl' hcomma _ ih ihrest => exact .moreElements hnl hnl' hcomma ih ihrest
  | noEntries hafter => exact .noEntries hafter
  | lastEntry hkey hnl₁ harrow hnl₂ _ hnl₃ hnewline hcomma ihkey ihvalue =>
    exact .lastEntry hkey hnl₁ harrow hnl₂ hnl₃ hnewline hcomma ihkey ihvalue
  | moreEntries hkey hnl₁ harrow hnl₂ _ hnl₃ hcomma hnl₄ hnewline _ ihkey ihvalue ihrest =>
    exact .moreEntries hkey hnl₁ harrow hnl₂ hnl₃ hcomma hnl₄ hnewline ihkey ihvalue ihrest
  | arguments hopener _ hcloser ih => exact .arguments hopener hcloser ih
  | noArguments hafter => exact fun _ _ _ => (Reads.noArguments hafter).before_put trivial
  | someArguments _ ih => exact fun before hw hsituated => .someArguments (ih before hw hsituated)
  | bareArguments hfirst _ ihfirst ihrest => exact .bareArguments hfirst ihfirst ihrest
  | noMoreArguments hafter => exact fun _ _ _ => (Reads.noMoreArguments hafter).before_put trivial
  | moreArguments hcomma hnl hfirst _ ihfirst ihrest =>
    exact .moreArguments hcomma hnl hfirst ihfirst ihrest
  | word ht hafter => exact fun _ _ _ => .word ht (headKind_put_ne hafter rfl)
  | call ht _ ih => exact .call ht ih
  | callOf hargs _ ihargs ihlambda => exact .callOf hargs ihargs ihlambda
  | noLambda hpipe hpipes => exact fun _ _ _ => (Reads.noLambda hpipe hpipes).before_put trivial
  | someLambda _ ih => exact fun before hw hsituated => .someLambda (ih before hw hsituated)
  | lambdaNoList ht _ ih => exact .lambdaNoList ht ih
  | lambda hopener _ hcloser _ ihparams ihbody => exact .lambda hopener hcloser ihparams ihbody
  | lambdaBody hnl _ ih => exact .lambdaBody hnl ih
  | block hopener hstmts hcloser ih => exact .block hopener hstmts hcloser ih
  | noStatements hseps hafter => exact .noStatements hseps hafter
  | moreStatements hseps hfirst hcomma _ ihfirst ihrest =>
    exact .moreStatements hseps hfirst hcomma ihfirst ihrest
  | branching ht _ ih => exact .branching ht ih
  | invocation _ ih => exact fun before hw hsituated => .invocation (ih before hw hsituated)
  | callableValue hcallable _ ih ihstmt => exact .callableValue hcallable ih ihstmt
  | value hname hexpr _ ih ihstmt => exact .value hname hexpr ih ihstmt
  | assignment ht htarget hnl _ ih => exact .assignment ht htarget hnl ih
  | noAssignment hafter => exact fun _ _ _ => (Reads.noAssignment hafter).before_put trivial
  | conditional ht hcondition hthen _ ihcondition ihthen ihelse =>
    exact .conditional ht hcondition hthen ihcondition ihthen ihelse
  | noAlternative helsif helse =>
    exact fun _ _ _ => (Reads.noAlternative helsif helse).before_put trivial
  | elsifAlternative hnl ht _ ih => exact .elsifAlternative hnl ht ih
  | elseAlternative hnl ht hbody ih => exact .elseAlternative hnl ht hbody ih
  | wholeCall ht hcall _ hafter ihcall ihrest => exact .wholeCall ht hcall hafter ihcall ihrest
  | callValue ht hcall hrest hwhole ihcall ihrest =>
    exact .callValue ht hwhole hcall hrest ihcall ihrest
  | bareCall ht hbegins hargs hcount ih => exact .bareCall ht hbegins hargs hcount ih
  | wordValue ht hparen hbegins _ ih => exact .wordValue ht hparen hbegins ih
  | continued hleft _ ihleft ihrest => exact .continued hleft ihleft ihrest
  | noProgram _ ih => exact .noProgram ih
  | program _ hne ih => exact .program hne ih

/-- A source unit is the same with the line breaks. -/
theorem Breaking.reads_program {w : Breaking σ} {context : Context σ} {v : Program σ}
    (h : Reads context .program w.tokens [] v) : Reads context .program (w.put w.tokens) [] v :=
  h.breaks [] (List.append_nil w.tokens).symm rfl

end CallGrammar
