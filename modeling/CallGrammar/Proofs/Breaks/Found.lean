import CallGrammar.Proofs.Breaks.Grammar

/-!
# CallGrammar.Proofs.Breaks.Found

Where the line breaks of a phrase are: where a line may be broken, or in a body
(`Reads.aligned`).  So in brackets that hold no statements a line is broken nowhere else
(`Reads.breakable`).
-/

namespace CallGrammar

variable {σ : Type}

/-- The innermost brackets around the place between the tokens are the braces of a body. -/
inductive InBody (inside rest : List (Token σ)) : Prop where
  | intro {before left right after : List (Token σ)} {opener closer : Token σ}
      (hinside : inside = before ++ opener :: left) (hrest : rest = right ++ closer :: after)
      (hopener : opener.kind = .symbol .openBrace) (hcloser : closer.kind = .symbol .closeBrace)
      (hleft : level 0 left = some 0) (hright : level 0 right = some 0)
      (hplain : Plain 0 (left ++ right))

/-- Every line break among the tokens `ts`, behind `before`, is where a line may be broken or in
a body. -/
def Lined (before ts after : List (Token σ)) : Prop :=
  ∀ front t rest, ts = front ++ t :: rest → t.kind = .newline →
    Breakable (before ++ front) (headKind (rest ++ after)) ∨
      InBody (before ++ front) (rest ++ after)

/-- The same of those that are in brackets of the tokens. -/
def LinedInside (before ts after : List (Token σ)) : Prop :=
  ∀ front t rest, ts = front ++ t :: rest → t.kind = .newline → level 0 front ≠ some 0 →
    Breakable (before ++ front) (headKind (rest ++ after)) ∨
      InBody (before ++ front) (rest ++ after)

/-- A line may be broken behind the tokens, whatever comes next. -/
def BreaksBehind (ts : List (Token σ)) : Prop :=
  ∃ k, lastKind none ts = some k ∧ k.breaksBehind = true

/-- A line may be broken before the tokens, whatever comes before them. -/
def BreaksBefore (ts : List (Token σ)) : Prop :=
  ∃ k, headKind ts = some k ∧ k.breaksBefore = true

section

variable {before ts us nl rest after : List (Token σ)} {t opener closer : Token σ} {k : Kind}

theorem BreaksBehind.breakable (h : BreaksBehind ts) (next : Option Kind) : Breakable ts next := by
  obtain ⟨k, hk, hbehind⟩ := h
  exact .behind hk hbehind

theorem BreaksBefore.breakable (h : BreaksBefore ts) (before : List (Token σ)) :
    Breakable before (headKind ts) := by
  obtain ⟨k, hk, hbefore⟩ := h
  exact .before hk hbefore

theorem breaksBehind_concat (ht : t.kind = k) (hk : k.breaksBehind = true) (ts : List (Token σ)) :
    BreaksBehind (ts ++ [t]) :=
  ⟨k, by rw [lastKind_concat, ht], hk⟩

theorem breaksBefore_cons (ht : t.kind = k) (hk : k.breaksBefore = true) (ts : List (Token σ)) :
    BreaksBefore (t :: ts) :=
  ⟨k, by rw [headKind_cons, ht], hk⟩

/-- A token of two runs is in one of them. -/
theorem append_eq_append_cons {α : Type} {ts us front rest : List α} {t : α}
    (h : ts ++ us = front ++ t :: rest) :
    (∃ rest', ts = front ++ t :: rest' ∧ rest = rest' ++ us) ∨
      ∃ front', us = front' ++ t :: rest ∧ front = ts ++ front' := by
  obtain ⟨as, rfl, has⟩ | ⟨as, rfl, has⟩ := List.append_eq_append_iff.1 h
  · exact .inr ⟨as, has, rfl⟩
  · cases as with
    | nil => exact .inr ⟨[], has.symm, by simp⟩
    | cons a as =>
      obtain ⟨rfl, rfl⟩ := List.cons.inj has
      exact .inl ⟨as, rfl, rfl⟩

namespace LinedInside

/-- Behind tokens that close their brackets, what is inside of brackets is the same. -/
theorem append (h : LinedInside before ts (us ++ after))
    (h' : LinedInside (before ++ ts) us after) (hts : level 0 ts = some 0) :
    LinedInside before (ts ++ us) after := by
  intro front t rest heq ht hlevel
  obtain ⟨rest, rfl, rfl⟩ | ⟨front, rfl, rfl⟩ := append_eq_append_cons heq
  · rw [List.append_assoc]
    exact h front t rest rfl ht hlevel
  · rw [level_append, hts, Option.bind_some] at hlevel
    rw [← List.append_assoc]
    exact h' front t rest rfl ht hlevel

/-- Tokens without brackets have nothing inside of them. -/
theorem all (hts : AllKinds Kind.isInner ts) (before after : List (Token σ)) :
    LinedInside before ts after := by
  intro front t rest heq _ hlevel
  have hfront : AllKinds Kind.isInner front := fun u hu => hts u (by simp [heq, hu])
  exact absurd ((Balanced.inner hfront).level 0) hlevel

/-- Tokens before the rest that are no brackets. -/
theorem front (hts : AllKinds Kind.isInner ts) (h : LinedInside (before ++ ts) us after) :
    LinedInside before (ts ++ us) after :=
  append (all hts before (us ++ after)) h ((Balanced.inner hts).level 0)

theorem cons (ht : t.kind = k) (hk : k.isInner = true)
    (h : LinedInside (before ++ [t]) ts after) : LinedInside before (t :: ts) after :=
  have hsingle : AllKinds Kind.isInner [t] := .cons (by rw [ht, hk]) nofun
  front hsingle h

end LinedInside

namespace Lined

/-- What holds of all line breaks holds of those in brackets. -/
theorem inside (h : Lined before ts after) : LinedInside before ts after :=
  fun front t rest heq ht _ => h front t rest heq ht

theorem nil (before after : List (Token σ)) : Lined before [] after := by
  intro front t rest h
  simp at h

/-- Before the same tokens, however they are put together. -/
theorem of_eq (h : Lined before ts rest) (hrest : rest = after) : Lined before ts after := hrest ▸ h

/-- Lines broken in tokens one after the other. -/
theorem append (h : Lined before ts (us ++ after)) (h' : Lined (before ++ ts) us after) :
    Lined before (ts ++ us) after := by
  intro front t rest heq ht
  obtain ⟨rest, rfl, rfl⟩ | ⟨front, rfl, rfl⟩ := append_eq_append_cons heq
  · rw [List.append_assoc]
    exact h front t rest rfl ht
  · rw [← List.append_assoc]
    exact h' front t rest rfl ht

theorem single (ht : t.kind ≠ .newline) (before after : List (Token σ)) :
    Lined before [t] after := by
  intro front u rest heq hu
  have hmem : u ∈ [t] := by simp [heq]
  rw [List.mem_singleton.1 hmem] at hu
  exact absurd hu ht

theorem cons (ht : t.kind = k) (hk : k ≠ .newline) (h : Lined (before ++ [t]) ts after) :
    Lined before (t :: ts) after :=
  append (single (by rw [ht]; exact hk) before (ts ++ after)) h

/-- Line breaks where a line may be broken: behind the first of them, and before the last. -/
theorem newlines (hnl : Newlines nl) (h : Breakable before (headKind after)) :
    Lined before nl after := by
  rintro front t rest rfl ht
  left
  obtain rfl | ⟨front, u, rfl⟩ := front.eq_nil_or_concat
  · cases rest with
    | nil => rwa [List.append_nil]
    | cons u rest => exact (breaksBefore_cons (eq_of_beq (hnl u (by simp))) rfl _).breakable _
  · rw [List.concat_eq_append] at hnl ⊢
    rw [← List.append_assoc]
    exact (breaksBehind_concat (eq_of_beq (hnl u (by simp))) rfl _).breakable _

/-- Such line breaks before the rest. -/
theorem front (hnl : Newlines nl) (h : Breakable before (headKind (us ++ after)))
    (h' : Lined (before ++ nl) us after) : Lined before (nl ++ us) after :=
  append (newlines hnl h) h'

/-- A token that lines are broken behind, and line breaks. -/
theorem behind {s : Symbol} (ht : t.kind = .symbol s)
    (hs : Kind.breaksBehind (.symbol s) = true) (hnl : Newlines nl)
    (h : Lined (before ++ [t] ++ nl) us after) : Lined before (t :: (nl ++ us)) after :=
  cons ht nofun (front hnl ((breaksBehind_concat ht hs before).breakable _) h)

/-- Line breaks, and a token that lines are broken before. -/
theorem ahead {s : Symbol} (hnl : Newlines nl) (ht : t.kind = .symbol s)
    (hs : Kind.breaksBefore (.symbol s) = true) (h : Lined (before ++ nl ++ [t]) us after) :
    Lined before (nl ++ t :: us) after :=
  front hnl ((breaksBefore_cons ht hs _).breakable _) (cons ht nofun h)

/-- Line breaks on both sides of a token that lines are broken around. -/
theorem around {s : Symbol} {nl' : List (Token σ)} (hnl : Newlines nl) (ht : t.kind = .symbol s)
    (hnl' : Newlines nl') (hs : Kind.breaksBefore (.symbol s) = true)
    (hs' : Kind.breaksBehind (.symbol s) = true)
    (h : Lined (before ++ nl ++ [t] ++ nl') us after) :
    Lined before (nl ++ t :: (nl' ++ us)) after :=
  front hnl ((breaksBefore_cons ht hs _).breakable _) (behind ht hs' hnl' h)

/-- The line breaks between the braces of a body are in it. -/
theorem body (hopener : opener.kind = .symbol .openBrace)
    (hcloser : closer.kind = .symbol .closeBrace) (hclosed : level 0 ts = some 0)
    (hplain : Plain 0 ts) (h : LinedInside (before ++ [opener]) ts (closer :: after)) :
    Lined before (opener :: (ts ++ [closer])) after := by
  suffices hinner : Lined (before ++ [opener]) ts (closer :: after) from
    cons hopener nofun (append hinner (cons hcloser nofun (nil _ _)))
  rintro front t rest rfl ht
  by_cases hlevel : level 0 front = some 0
  · have hinner : t.kind.isInner = true := by rw [ht]; rfl
    have hrest : level 0 rest = some 0 := by
      rwa [level_append, hlevel, Option.bind_some, level_inner hinner] at hclosed
    have hplain' : Plain 0 (front ++ rest) := by
      obtain ⟨hfront, htail⟩ := (plain_append hlevel).1 hplain
      have htail : Plain 0 rest := by
        rw [Plain, ht] at htail
        exact htail.2
      exact (plain_append hlevel).2 ⟨hfront, htail⟩
    rw [List.append_assoc]
    exact .inr (.intro rfl rfl hopener hcloser hlevel hrest hplain')
  · exact h front t rest rfl ht hlevel

end Lined

end

/-- Braces with no arrow of their own that hold no statements are empty. -/
theorem Bracketed.breakable_of_plain {before left right after : List (Token σ)}
    {opener closer : Token σ} (h : Bracketed opener (left ++ right) closer)
    (hopener : opener.kind = .symbol .openBrace) (hplain : Plain 0 (left ++ right)) :
    Breakable (before ++ opener :: left) (headKind (right ++ closer :: after)) := by
  generalize hinner : left ++ right = inner at h hplain
  cases h with
  | parentheses hparen | brackets hparen => rw [hopener] at hparen; cases hparen
  | hash _ hkey harrow => exact absurd harrow (not_arrow_of_plain hplain (hkey.level 0))
  | emptyHash _ hnewlines _ =>
    have hleft : Newlines left := fun t ht => hnewlines t (by simp [← hinner, ht])
    obtain rfl | ⟨front, t, rfl⟩ := left.eq_nil_or_concat
    · exact (breaksBehind_concat hopener rfl before).breakable _
    · rw [List.concat_eq_append] at hleft ⊢
      rw [← List.cons_append, ← List.append_assoc]
      exact (breaksBehind_concat (eq_of_beq (hleft t (by simp))) rfl _).breakable _

/-! ## every phrase -/

/-- What a phrase is told of the tokens around it: that a line may be broken where it begins with
line breaks and where it ends with some, and that a value has ended where it goes on with one. -/
def Phrase.Between : Phrase σ → (before after : List (Token σ)) → Prop
  | parameters _, before, _ | lambdaBody _ _, before, _ => BreaksBehind before
  | elements _, before, after => BreaksBehind before ∧ BreaksBefore after
  | entries, _, after => BreaksBefore after
  | operators _ _, before, _ | suffixes _, before, _ | continued _, before, _ => EndsValue before
  | _, _, _ => True

/-- In statements lines are broken as well where another one begins, but not in what they are
made of. -/
def Phrase.Lined : Phrase σ → (before ts after : List (Token σ)) → Prop
  | statements, before, ts, after | statement, before, ts, after
  | valueStatement _, before, ts, after | conditional _, before, ts, after
  | alternative _, before, ts, after | program, before, ts, after => LinedInside before ts after
  | block construct, before, ts, after =>
    construct.closer = .closeBrace → CallGrammar.Lined before ts after
  | _, before, ts, after => CallGrammar.Lined before ts after

/-- The line breaks of the phrase are as `Phrase.Lined` says, wherever it stands. -/
def Phrase.Aligned (p : Phrase σ) (ts after : List (Token σ)) : Prop :=
  ∀ before, p.Between before after → p.Lined before ts after

/-- A list in brackets, whatever is behind the closer. -/
theorem Lined.elements {construct : Construct} {s s' : Symbol} {opener closer : Token σ}
    {ts us before after : List (Token σ)} (hopener : opener.kind = .symbol s)
    (hcloser : closer.kind = .symbol s') (hs : Kind.breaksBehind (.symbol s) = true)
    (hs' : Kind.breaksBefore (.symbol s') = true)
    (ih : Phrase.Aligned (.elements construct) ts (closer :: (us ++ after)))
    (h : Lined (before ++ [opener] ++ ts ++ [closer]) us after) :
    Lined before (opener :: (ts ++ closer :: us)) after := by
  have hitems := ih (before ++ [opener])
    ⟨breaksBehind_concat hopener hs before, breaksBefore_cons hcloser hs' _⟩
  exact .cons hopener nofun (.append hitems (.cons hcloser nofun h))

namespace Phrase.Aligned

variable {t opener closer comma : Token σ} {name : String} {first : Expr σ}
  {nl nl' ts us vs after : List (Token σ)}

/-- A parameter before others: its line breaks are behind the bar or a comma, or before the
next comma. -/
theorem moreParameters {place : σ} (hnl : Newlines nl) (ht : t.kind = .var name)
    (hnl' : Newlines nl') (hcomma : comma.kind = .symbol .comma)
    (ih : Aligned (.parameters place) ts after) :
    Aligned (.parameters place) (nl ++ t :: (nl' ++ comma :: ts)) after := by
  intro before hbehind
  refine .front hnl (hbehind.breakable _) (.cons ht nofun (.ahead hnl' hcomma rfl ?_))
  exact ih _ (breaksBehind_concat hcomma rfl _)

/-- An element before others: its line breaks are behind the bracket or a comma, or before the
next comma. -/
theorem moreElements {construct : Construct} (hnl : Newlines nl) (hnl' : Newlines nl')
    (hcomma : comma.kind = .symbol .comma)
    (ih : Aligned (.expression 0) ts (nl' ++ comma :: (us ++ after)))
    (ihrest : Aligned (.elements construct) us after) :
    Aligned (.elements construct) (nl ++ (ts ++ (nl' ++ comma :: us))) after := by
  rintro before ⟨hbehind, hafter⟩
  have hitem : CallGrammar.Lined (before ++ nl) ts ((nl' ++ comma :: us) ++ after) :=
    .of_eq (ih _ trivial) (by simp)
  refine .front hnl (hbehind.breakable _) (.append hitem (.ahead hnl' hcomma rfl ?_))
  exact ihrest _ ⟨breaksBehind_concat hcomma rfl _, hafter⟩

/-- A lambda breaks lines behind both of its bars. -/
theorem lambda {place : σ} {params : List (Ident σ)} (hopener : opener.kind = .symbol .pipe)
    (hcloser : closer.kind = .symbol .pipe)
    (ihparams : Aligned (.parameters place) ts (closer :: (us ++ after)))
    (ihbody : Aligned (.lambdaBody place params) us after) :
    Aligned .lambda (opener :: (ts ++ closer :: us)) after := by
  intro before _
  have hparams := ihparams _ (breaksBehind_concat hopener rfl before)
  refine .cons hopener nofun (.append hparams (.cons hcloser nofun ?_))
  exact ihbody _ (breaksBehind_concat hcloser rfl _)

variable [Location σ] {context : Context σ}

/-- Behind an operator lines are broken, as a value has ended before it. -/
theorem operator {floor : Nat} {left right whole : Expr σ} {op : BinaryOp}
    (ht : BinaryOp.ofKind? t.kind = some op) (hnl : Newlines nl)
    (hright : Reads context (.expression (op.level + 1)) ts (us ++ after) right)
    (ihright : Aligned (.expression (op.level + 1)) ts (us ++ after))
    (ihrest : Aligned (.operators floor whole) us after) :
    Aligned (.operators floor left) (t :: (nl ++ (ts ++ us))) after := by
  intro before hends
  refine .cons rfl (Kind.ne_newline_of_isInert (BinaryOp.inert ht))
    (.front hnl (.operator rfl hends ht) ?_)
  exact .append (ihright _ trivial) (ihrest _ (hright.ends.prepend _))

/-- A call of a method is a value: its arguments and its lambda end with a closer, if there
are any. -/
theorem method {dot : Token σ} {args : List (Expr σ)} {lambda : Option (Lambda σ)}
    {whole : Expr σ} (hdot : dot.kind = .symbol .dot) (ht : t.kind = .name name)
    (hargs : Reads context .optionalArguments ts (us ++ (vs ++ after)) args)
    (hlambda : Reads context .optionalLambda us (vs ++ after) lambda)
    (ihargs : Aligned .optionalArguments ts (us ++ (vs ++ after)))
    (ihlambda : Aligned .optionalLambda us (vs ++ after))
    (ihrest : Aligned (.suffixes whole) vs after) :
    Aligned (.suffixes first) (dot :: t :: (ts ++ (us ++ vs))) after := by
  intro before _
  have hname : EndsValue (before ++ [dot] ++ [t]) := endsValue_concat (by rw [ht]; rfl) _
  have hends := (hname.append hargs.ends).append hlambda.ends
  have hargs' : CallGrammar.Lined (before ++ [dot] ++ [t]) ts ((us ++ vs) ++ after) :=
    .of_eq (ihargs _ trivial) (by simp)
  refine .cons hdot nofun (.cons ht nofun (.append hargs' (.append (ihlambda _ trivial) ?_)))
  exact ihrest _ hends

/-- The parts of a conditional close their brackets, so what is inside of each is inside of the
whole. -/
theorem conditional {sense : Sense} {condition : Expr σ} {thenBranch : Block σ}
    (ht : opensCondition sense t.kind = true)
    (hcondition : Reads context (.expression 0) ts (us ++ (vs ++ after)) condition)
    (hthen : Reads context (.block (Grammar.branchConstruct sense)) us (vs ++ after) thenBranch)
    (ihcondition : Aligned (.expression 0) ts (us ++ (vs ++ after)))
    (ihthen : Aligned (.block (Grammar.branchConstruct sense)) us (vs ++ after))
    (ihelse : Aligned (.alternative sense) vs after) :
    Aligned (.conditional sense) (t :: (ts ++ (us ++ vs))) after := by
  intro before _
  have hbraces := Grammar.closer_branchConstruct sense
  have hbranches : LinedInside (before ++ [t] ++ ts) (us ++ vs) after :=
    .append (ihthen _ trivial hbraces).inside (ihelse _ trivial) (hthen.settles hbraces).closed
  have hcond : CallGrammar.Lined (before ++ [t]) ts ((us ++ vs) ++ after) :=
    .of_eq (ihcondition _ trivial) (by simp)
  exact .cons rfl (Kind.isInner_of_isFlat (Kind.isFlat_of_opensCondition ht))
    (.append hcond.inside hbranches hcondition.settles.closed)

end Phrase.Aligned

variable [Location σ] {context : Context σ}

/-- Wherever a phrase stands, its line breaks are where a line may be broken or in a body. -/
theorem Reads.aligned {p : Phrase σ} {ts after : List (Token σ)} {v : p.Value}
    (h : Reads context p ts after v) : p.Aligned ts after := by
  induction h with
  | noParameters hnl _ => exact fun before hbehind => .newlines hnl (hbehind.breakable _)
  | lastParameter hnl ht hnl' hafter =>
    intro before hbehind
    refine .front hnl (hbehind.breakable _) (.cons ht nofun (.newlines hnl' ?_))
    exact .bar (by rw [lastKind_concat, ht]) hafter
  | moreParameters hnl ht hnl' hcomma _ ih => exact .moreParameters hnl ht hnl' hcomma ih
  | expression hleft _ ihleft ihrest =>
    exact fun before _ => .append (ihleft before trivial) (ihrest _ (hleft.ends.prepend before))
  | noOperator _ => exact fun before _ => .nil before _
  | operator ht _ hnl hright _ ihright ihrest => exact .operator ht hnl hright ihright ihrest
  | sign ht _ ih =>
    exact fun before _ => .cons rfl (Kind.ne_newline_of_isInert (UnaryOp.inert ht)) (ih _ trivial)
  | operand hfirst _ ihfirst ihrest =>
    exact fun before _ => .append (ihfirst before trivial) (ihrest _ (hfirst.ends.prepend before))
  | noSuffix _ _ => exact fun before _ => .nil before _
  | method hdot ht hargs hlambda _ ihargs ihlambda ihrest =>
    exact .method hdot ht hargs hlambda ihargs ihlambda ihrest
  | access hopener _ _ hcloser _ _ ihkeys ihrest =>
    exact fun before _ =>
      Lined.elements hopener hcloser rfl rfl ihkeys (ihrest _ (endsValue_brackets hcloser rfl _))
  | var ht => exact fun before _ => .cons ht nofun (.nil _ _)
  | reference ht => exact fun before _ => .cons ht nofun (.nil _ _)
  | literal ht =>
    exact fun before _ => .cons rfl (Kind.ne_newline_of_isInert (Literal.inert ht)) (.nil _ _)
  | name _ ih => exact fun before _ => ih before trivial
  | array hopener _ hcloser ih =>
    exact fun before _ => Lined.elements hopener hcloser rfl rfl ih (.nil _ _)
  | hash hopener hnl _ hcloser ih =>
    exact fun before _ => .behind hopener rfl hnl
      (.append (ih _ (breaksBefore_cons hcloser rfl _)) (.cons hcloser nofun (.nil _ _)))
  | parentheses hopener hnl _ hnl' hcloser ih =>
    exact fun before _ => .behind hopener rfl hnl
      (.append (.of_eq (ih _ trivial) (by simp)) (.ahead hnl' hcloser rfl (.nil _ _)))
  | noElements hnl _ => exact fun before hbetween => .newlines hnl (hbetween.1.breakable _)
  | lastElement hnl _ hnl' _ _ ih =>
    exact fun before hbetween => .front hnl (hbetween.1.breakable _)
      (.append (ih _ trivial) (.newlines hnl' (hbetween.2.breakable _)))
  | moreElements hnl _ hnl' hcomma _ ih ihrest => exact .moreElements hnl hnl' hcomma ih ihrest
  | noEntries _ => exact fun before _ => .nil before _
  | lastEntry _ hnl₁ harrow hnl₂ _ hnl₃ _ _ ihkey ihvalue =>
    exact fun before hafter => .append (.of_eq (ihkey before trivial) (by simp))
      (.around hnl₁ harrow hnl₂ rfl rfl
        (.append (ihvalue _ trivial) (.newlines hnl₃ (hafter.breakable _))))
  | moreEntries _ hnl₁ harrow hnl₂ _ hnl₃ hcomma hnl₄ _ _ ihkey ihvalue ihrest =>
    exact fun before hafter => .append (.of_eq (ihkey before trivial) (by simp))
      (.around hnl₁ harrow hnl₂ rfl rfl (.append (.of_eq (ihvalue _ trivial) (by simp))
        (.around hnl₃ hcomma hnl₄ rfl rfl (ihrest _ hafter))))
  | arguments hopener _ hcloser ih =>
    exact fun before _ => Lined.elements hopener hcloser rfl rfl ih (.nil _ _)
  | noArguments _ => exact fun before _ => .nil before _
  | someArguments _ ih => exact fun before _ => ih before trivial
  | bareArguments _ _ ihfirst ihrest =>
    exact fun before _ => .append (ihfirst before trivial) (ihrest _ trivial)
  | noMoreArguments _ => exact fun before _ => .nil before _
  | moreArguments hcomma hnl _ _ ihfirst ihrest =>
    exact fun before _ =>
      .behind hcomma rfl hnl (.append (ihfirst _ trivial) (ihrest _ trivial))
  | word ht _ => exact fun before _ => .cons ht nofun (.nil _ _)
  | call ht _ ih => exact fun before _ => .cons ht nofun (ih _ trivial)
  | callOf _ _ ihargs ihlambda =>
    exact fun before _ => .append (ihargs before trivial) (ihlambda _ trivial)
  | noLambda _ _ => exact fun before _ => .nil before _
  | someLambda _ ih => exact fun before _ => ih before trivial
  | lambdaNoList ht _ ih =>
    exact fun before _ => .cons ht nofun (ih _ (breaksBehind_concat ht rfl before))
  | lambda hopener _ hcloser _ ihparams ihbody => exact .lambda hopener hcloser ihparams ihbody
  | lambdaBody hnl _ ih =>
    exact fun before hbehind => .front hnl (hbehind.breakable _) (ih _ trivial rfl)
  | block hopener hstmts hcloser ih =>
    intro before _ hbrace
    exact .body hopener (hcloser.trans (congrArg Kind.symbol hbrace)) hstmts.settles.closed
      hstmts.settles.plain (ih _ trivial)
  | noStatements hseps _ => exact fun before _ => .all (hseps.all rfl rfl) before _
  | moreStatements hseps hfirst _ _ ihfirst ihrest =>
    exact fun before _ => .front (hseps.all rfl rfl)
      (.append (ihfirst _ trivial) (ihrest _ trivial) hfirst.settles.closed)
  | branching _ _ ih => exact fun before _ => ih before trivial
  | invocation _ ih => exact fun before _ => (ih before trivial).inside
  | callableValue hcallable _ ih ihstmt =>
    exact fun before _ =>
      .append (ih before trivial).inside (ihstmt _ trivial) hcallable.settles.closed
  | value _ hexpr _ ih ihstmt =>
    exact fun before _ => .append (ih before trivial).inside (ihstmt _ trivial) hexpr.settles.closed
  | assignment ht _ hnl _ ih =>
    exact fun before _ => .cons ht rfl (.front (hnl.all rfl) (ih _ trivial).inside)
  | noAssignment _ => exact fun before _ => (Lined.nil before _).inside
  | conditional ht hcondition hthen _ ihcondition ihthen ihelse =>
    exact .conditional ht hcondition hthen ihcondition ihthen ihelse
  | noAlternative _ _ => exact fun before _ => (Lined.nil before _).inside
  | elsifAlternative hnl _ _ ih => exact fun before _ => .front (hnl.all rfl) (ih _ trivial)
  | elseAlternative hnl ht _ ih =>
    exact fun before _ => .front (hnl.all rfl) (.cons ht rfl (ih _ trivial rfl).inside)
  | wholeCall ht hcall _ _ ihcall ihrest =>
    exact fun before _ =>
      .cons ht nofun (.append (ihcall _ trivial) (ihrest _ (hcall.ends.prepend _)))
  | callValue ht hcall _ _ ihcall ihrest =>
    exact fun before _ =>
      .cons ht nofun (.append (ihcall _ trivial) (ihrest _ (hcall.ends.prepend _)))
  | bareCall ht _ _ _ ih => exact fun before _ => .cons ht nofun (ih _ trivial)
  | wordValue ht _ _ _ ih =>
    exact fun before _ => .cons ht nofun (ih _ (endsValue_concat (by rw [ht]; rfl) before))
  | continued hleft _ ihleft ihrest =>
    exact fun before hends =>
      .append (ihleft before hends) (ihrest _ (EndsValue.append hends hleft.ends))
  | noProgram _ ih => exact fun before _ => ih before trivial
  | program _ _ ih => exact fun before _ => ih before trivial

/-- In brackets that hold no statements a line is broken nowhere else. -/
theorem Reads.breakable {inside rest : List (Token σ)} {t : Token σ} {v : Program σ}
    (h : Reads context .program (inside ++ t :: rest) [] v) (ht : t.kind = .newline)
    (henclosed : Enclosed inside rest) : Breakable inside (headKind rest) := by
  obtain ⟨hinside, hrest, hleft, hright, hbrackets⟩ := henclosed
  obtain ⟨hopens, hcloses⟩ := hbrackets.groups
  have hlevel : level 0 inside ≠ some 0 := by
    intro hlevel
    rw [hinside] at hlevel
    rw [not_opens_of_level hlevel (hleft.level 0)] at hopens
    cases hopens
  have hlined := h.aligned [] trivial inside t rest rfl ht hlevel
  rw [List.nil_append, List.append_nil] at hlined
  obtain hbreakable | ⟨hinside', hrest', hopener, hcloser, hleft', hright', hplain⟩ := hlined
  · exact hbreakable
  · subst hinside hrest
    obtain ⟨-, rfl, rfl⟩ :=
      eq_of_level hinside' hopens (by rw [hopener]; rfl) (hleft.level 0) hleft'
    obtain rfl := eq_of_level_front hrest' hcloses (by rw [hcloser]; rfl) (hright.level 0) hright'
    exact hbrackets.breakable_of_plain hopener hplain

end CallGrammar
