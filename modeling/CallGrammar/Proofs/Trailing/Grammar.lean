import CallGrammar.Proofs.Trailing

/-!
# CallGrammar.Proofs.Trailing.Grammar

Tokens derive the same with commas before the closers of lists that have an element and no
comma behind the last one.  Each rule of the grammar has its lemma, about the phrase it
derives.
-/

namespace CallGrammar

variable {σ : Type}

/-! ## what stands before a phrase -/

/-- No name stands right before a parenthesis. -/
def Clear (before ts : List (Token σ)) : Prop :=
  headKind ts = some (.symbol .openParen) → ∀ name, lastKind none before ≠ some (.name name)

section

variable {before nl ts us : List (Token σ)} {t : Token σ} {p : Kind → Bool}

theorem lastKind_of_all (h : AllKinds p ts) (hne : ts ≠ []) (previous : Option Kind) :
    ∃ k, lastKind previous ts = some k ∧ p k = true := by
  induction ts generalizing previous with
  | nil => exact absurd rfl hne
  | cons t ts ih =>
    cases ts with
    | nil => exact ⟨t.kind, rfl, h.head⟩
    | cons u us => exact ih h.tail (List.cons_ne_nil u us) (some t.kind)

theorem newlines_nil : Newlines ([] : List (Token σ)) := .nil

theorem clear_nil (ts : List (Token σ)) : Clear [] ts := by
  intro _ name hname
  cases hname

theorem Clear.left (h : Clear before (ts ++ us)) : Clear before ts := by
  intro hparen
  cases ts with
  | nil => cases hparen
  | cons t ts => exact h hparen

/-- Behind tokens that are no names. -/
theorem Clear.front (h : Clear before (ts ++ us)) (hts : AllKinds (!isName ·) ts) :
    Clear (before ++ ts) us := by
  cases ts with
  | nil => rwa [List.append_nil]
  | cons t ts =>
    intro _ name hname
    rw [lastKind_append] at hname
    obtain ⟨k, hk, hnot⟩ := lastKind_of_all hts (List.cons_ne_nil t ts) (lastKind none before)
    rw [hname, Option.some.injEq] at hk
    rw [← hk] at hnot
    cases hnot

/-- Line breaks behind a name keep it from being called. -/
theorem Clear.newlines (h : Clear before (nl ++ ts)) (hnl : Newlines nl) :
    Clear (before ++ nl) ts :=
  h.front (hnl.all rfl)

/-- Behind a token that is no name, and line breaks. -/
theorem clear_cons (ht : isName t.kind = false) (hnl : Newlines nl) (ts : List (Token σ)) :
    Clear (before ++ t :: nl) ts := by
  intro _ name hname
  have hall : AllKinds (!isName ·) (t :: nl) := .cons (by simp [ht]) (hnl.all rfl)
  rw [lastKind_append] at hname
  obtain ⟨k, hk, hnot⟩ := lastKind_of_all hall (List.cons_ne_nil t nl) (lastKind none before)
  rw [hname, Option.some.injEq] at hk
  rw [← hk] at hnot
  cases hnot

/-- Behind a token that is no name, a parenthesis opens no list of arguments. -/
theorem clear_single (ht : isName t.kind = false) (ts : List (Token σ)) :
    Clear (before ++ [t]) ts :=
  clear_cons ht .nil ts

end

/-- What a phrase is told of the tokens before it. -/
def Phrase.Behind : Phrase σ → (before ts : List (Token σ)) → Prop
  | expression _, before, ts | operand, before, ts | primary, before, ts
  | elements _, before, ts | entries, before, ts | bareArguments, before, ts
  | statements, before, ts | statement, before, ts => Clear before ts
  | optionalLambda, before, _ | lambda, before, _ => BehindCall before
  | program, before, _ => before = []
  | _, _, _ => True

/-! ## closers -/

namespace Trailing

open Insertion

variable {w : Trailing σ} {t opener closer : Token σ} {before ts rest : List (Token σ)}

/-- Where a comma is put before the closer of a group, the group is the list, and it ends
without one. -/
theorem listed_of_mark (h : w.tokens = before ++ (opener :: (ts ++ closer :: rest)))
    (hopener : opener.kind.opensGroup = true) (hts : level 0 ts = some 0)
    (hcloser : closer.kind.closesGroup = true) (hmark : w.mark closer ≠ []) :
    Listed before opener ts closer ∧ Unended ts := by
  obtain ⟨before', opener', items, heq, hlisted, hunended⟩ :=
    w.listed (before ++ opener :: ts) closer rest (by simpa using h) (marked_of_mark hmark)
  obtain ⟨hopener', hitems⟩ := hlisted.level hcloser
  obtain ⟨rfl, rfl, rfl⟩ := eq_of_level heq hopener hopener' hts hitems
  exact ⟨hlisted, hunended⟩

/-- What a marked closer stands behind may end in a comma. -/
theorem last_of_mark {k : Symbol} (h : w.tokens = before ++ (opener :: (ts ++ closer :: rest)))
    (hopener : opener.kind.opensGroup = true) (hts : level 0 ts = some 0)
    (hcloser : closer.kind = .symbol k) (hgroup : (Kind.symbol k).closesGroup = true)
    (hmark : w.mark closer ≠ []) :
    headKind (closer :: rest) = some (.symbol k) ∧ Unended ts :=
  ⟨congrArg some hcloser, (listed_of_mark h hopener hts (hcloser ▸ hgroup) hmark).2⟩

/-- A parenthesis that no name stands before opens no list. -/
theorem mark_of_parentheses (h : w.tokens = before ++ (opener :: (ts ++ closer :: rest)))
    (hopener : opener.kind = .symbol .openParen) (hts : level 0 ts = some 0)
    (hcloser : closer.kind = .symbol .closeParen)
    (hclear : ∀ name, lastKind none before ≠ some (.name name)) : w.mark closer = [] := by
  refine Decidable.not_not.1 fun hmark => ?_
  obtain ⟨hlisted, -⟩ :=
    listed_of_mark h (by rw [hopener]; rfl) hts (by rw [hcloser]; rfl) hmark
  cases hlisted with
  | arguments hname => exact hclear _ hname
  | array _ _ hbracket => rw [hcloser] at hbracket; cases hbracket
  | hash _ _ _ _ hbrace => rw [hcloser] at hbrace; cases hbrace
  | parameters _ _ hpipe => rw [hcloser] at hpipe; cases hpipe

/-- Braces without an arrow of their own hold no list. -/
theorem mark_of_block (h : w.tokens = before ++ (opener :: (ts ++ closer :: rest)))
    (hopener : opener.kind = .symbol .openBrace) (hts : level 0 ts = some 0) (hplain : Plain 0 ts)
    (hcloser : closer.kind = .symbol .closeBrace) : w.mark closer = [] := by
  refine Decidable.not_not.1 fun hmark => ?_
  obtain ⟨hlisted, -⟩ :=
    listed_of_mark h (by rw [hopener]; rfl) hts (by rw [hcloser]; rfl) hmark
  cases hlisted with
  | arguments _ _ _ hparen => rw [hcloser] at hparen; cases hparen
  | array _ _ hbracket => rw [hcloser] at hbracket; cases hbracket
  | hash _ hkey harrow _ _ => exact not_arrow_of_plain hplain (hkey.level 0) harrow
  | parameters _ _ hpipe => rw [hcloser] at hpipe; cases hpipe

/-- What a marked bar closes. -/
theorem parameters_of_mark {inside : List (Token σ)} (h : w.tokens = inside ++ closer :: rest)
    (hcloser : closer.kind = .symbol .pipe) (hmark : w.mark closer ≠ []) :
    ∃ before opener items, inside = before ++ opener :: items ∧ opener.kind = .symbol .pipe ∧
      AllKinds Kind.isParameter items ∧ Unended items := by
  obtain ⟨before, opener, items, heq, hlisted, hunended⟩ :=
    w.listed inside closer rest h (marked_of_mark hmark)
  cases hlisted with
  | arguments _ _ _ hparen => rw [hcloser] at hparen; cases hparen
  | array _ _ hbracket => rw [hcloser] at hbracket; cases hbracket
  | hash _ _ _ _ hbrace => rw [hcloser] at hbrace; cases hbrace
  | parameters hopener hitems _ => exact ⟨before, opener, items, heq, hopener, hitems, hunended⟩

/-- The bar behind a call closes no list. -/
theorem mark_of_behindCall (h : w.tokens = before ++ closer :: rest)
    (hcloser : closer.kind = .symbol .pipe) (hbehind : BehindCall before) :
    w.mark closer = [] := by
  refine Decidable.not_not.1 fun hmark => ?_
  obtain ⟨before', opener, items, rfl, -, hitems, hunended⟩ := parameters_of_mark h hcloser hmark
  have hne : items ≠ [] := by
    rintro rfl
    exact not_unended_newlines newlines_nil hunended
  obtain ⟨k, hk, hparameter⟩ := lastKind_of_all hitems hne (some opener.kind)
  obtain hlast | ⟨name, hlast⟩ := hbehind
  all_goals
    rw [lastKind_append, lastKind, hk, Option.some.injEq] at hlast
    rw [hlast] at hparameter
    cases hparameter

/-- The bar that a bar matches is one and the same. -/
theorem eq_of_parameters {before before' ts us : List (Token σ)} {t u : Token σ}
    (h : before ++ t :: ts = before' ++ u :: us) (ht : t.kind = .symbol .pipe)
    (hu : u.kind = .symbol .pipe) (hts : AllKinds Kind.isParameter ts)
    (hus : AllKinds Kind.isParameter us) : ts = us := by
  have hnot {v : Token σ} {as bs : List (Token σ)} (hv : v.kind = .symbol .pipe)
      (hall : AllKinds Kind.isParameter (as ++ v :: bs)) : False := by
    have hparameter := hall v (by simp)
    rw [hv] at hparameter
    cases hparameter
  obtain ⟨as, rfl, has⟩ | ⟨as, rfl, has⟩ := List.append_eq_append_iff.1 h
  · cases as with
    | nil => exact (List.cons.inj has).2
    | cons a as =>
      obtain ⟨rfl, rfl⟩ := List.cons.inj has
      exact (hnot hu hts).elim
  · cases as with
    | nil => exact (List.cons.inj has).2.symm
    | cons a as =>
      obtain ⟨rfl, rfl⟩ := List.cons.inj has
      exact (hnot ht hus).elim

end Trailing

/-- Between the bars of a lambda are variables, commas and line breaks. -/
theorem Reads.parameters_all [Location σ] {context : Context σ} {p : Phrase σ} {opener : σ}
    {ts after : List (Token σ)} {v : p.Value} (h : Reads context p ts after v)
    (hp : p = .parameters opener) : AllKinds Kind.isParameter ts := by
  induction h with
  | noParameters hnl _ => exact hnl.all rfl
  | lastParameter hnl ht hnl' _ =>
    exact AllKinds.append (hnl.all rfl) (.cons (by rw [ht]; rfl) (hnl'.all rfl))
  | moreParameters hnl ht hnl' hcomma _ ih =>
    have hrest := AllKinds.append (hnl'.all rfl) (.cons (by rw [hcomma]; rfl) (ih hp))
    exact AllKinds.append (hnl.all rfl) (.cons (by rw [ht]; rfl) hrest)
  | _ => cases hp

/-! ## tokens of known kinds -/

section

variable {k : Kind}

theorem Kind.closesList_of_isInert (h : k.isInert = true) : k.closesList = false := by
  cases k with
  | symbol s => cases s <;> first | rfl | cases h
  | _ => rfl

theorem Kind.closesList_of_opensCondition {sense : Sense} (h : opensCondition sense k = true) :
    k.closesList = false := by
  unfold opensCondition at h
  split at h <;> first | rfl | cases h

theorem Kind.closesList_of_beginsStatement (h : beginsStatement k = true) :
    k.closesList = false := by
  rw [← Bool.not_eq_true]
  intro hcloses
  unfold closesList at hcloses
  split at hcloses <;> first | cases h | cases hcloses

theorem Kind.isName_of_isQuiet (h : k.isQuiet = true) : isName k = false := by
  simp only [isQuiet, Bool.and_eq_true, Bool.not_eq_true'] at h
  exact h.2

end

/-! ## first tokens that close no list -/

section

variable [Location σ] {context : Context σ} {ts after : List (Token σ)}

/-- An assignment goes on with its sign. -/
theorem Reads.lead_valueStatement {w : Trailing σ} {expr : Expr σ} {stmt : Stmt σ}
    (h : Reads context (.valueStatement expr) ts after stmt) (hafter : w.lead after = []) :
    w.lead (ts ++ after) = [] := by
  cases h with
  | assignment ht => exact Trailing.mark_of_kind (by rw [ht]; rfl)
  | noAssignment => exact hafter

/-- Statements begin with no closer. -/
theorem Reads.lead_statements {w : Trailing σ} {stmts : List (Stmt σ)}
    (h : Reads context .statements ts after stmts) (hafter : w.lead after = []) :
    w.lead (ts ++ after) = [] := by
  have hseparator {k : Kind} (hk : (k == .newline || k == .symbol .semicolon) = true) :
      k.closesList = false := by
    obtain hk | hk := Bool.or_eq_true_iff.1 hk <;> rw [eq_of_beq hk] <;> rfl
  cases h with
  | noStatements hseps =>
    cases ts with
    | nil => exact hafter
    | cons t ts => exact Trailing.mark_of_kind (hseparator hseps.head)
  | @moreStatements first rest seps ts us _ hseps hfirst =>
    cases seps with
    | nil =>
      obtain ⟨t, vs, rfl, ht⟩ : BeginsWith beginsStatement ts := hfirst.opens
      exact Trailing.mark_of_kind (Kind.closesList_of_beginsStatement ht)
    | cons t seps => exact Trailing.mark_of_kind (hseparator hseps.head)

end

/-! ## every phrase -/

variable [Location σ]

/-- Where a phrase would go on with a comma after it, none is put there; and a block is closed
by a brace. -/
def Phrase.Ended (w : Trailing σ) : Phrase σ → (after : List (Token σ)) → Prop
  | bareArguments, after | moreBareArguments, after | statements, after | statement, after
  | callable, after => w.lead after = []
  | block construct, _ => construct.closer = .closeBrace
  | _, _ => True

/-- With the commas the tokens derive the same.  Those of a list take the comma after them
too, if they may end in one. -/
def Phrase.Shown (w : Trailing σ) (context : Context σ) :
    (p : Phrase σ) → (ts after : List (Token σ)) → p.Value → Prop
  | parameters opener, ts, after, v => (w.lead after ≠ [] → Unended ts) →
    Reads context (.parameters opener) (w.put ts ++ w.lead after) (w.body after) v
  | elements construct, ts, after, v =>
    (w.lead after ≠ [] → headKind after = some (.symbol construct.closer) ∧ Unended ts) →
    Reads context (.elements construct) (w.put ts ++ w.lead after) (w.body after) v
  | entries, ts, after, v =>
    (w.lead after ≠ [] → headKind after = some (.symbol .closeBrace) ∧ Unended ts) →
    Reads context .entries (w.put ts ++ w.lead after) (w.body after) v
  | p, ts, after, v => Reads context p (w.put ts) (w.put after) v

/-- Wherever the tokens stand in the vector. -/
def Phrase.Trails (w : Trailing σ) (context : Context σ) (p : Phrase σ)
    (ts after : List (Token σ)) (v : p.Value) : Prop :=
  ∀ before, w.tokens = before ++ (ts ++ after) → p.Behind before ts → p.Ended w after →
    p.Shown w context ts after v

namespace Phrase.Trails

open Insertion Trailing

variable {w : Trailing σ} {context : Context σ}

/-! ## parameters -/

theorem noParameters {opener : σ} {nl after : List (Token σ)} (hnl : Newlines nl)
    (hafter : headKind after = some (.symbol .pipe)) :
    Trails w context (.parameters opener) nl after [] := by
  intro before hw _ _ hunended
  have hlead : w.lead after = [] := Decidable.not_not.1 fun hlead =>
    not_unended_newlines hnl (hunended hlead)
  rw [put_newlines hnl, hlead, List.append_nil]
  exact .noParameters hnl (by rw [headKind_body, hafter])

/-- No comma is put behind a parameter, for bars close no list. -/
theorem lastParameter {opener : σ} {t : Token σ} {name : String} {nl nl' after : List (Token σ)}
    (hnl : Newlines nl) (ht : t.kind = .var name) (hnl' : Newlines nl')
    (hafter : headKind after = some (.symbol .pipe)) :
    Trails w context (.parameters opener) (nl ++ t :: nl') after [⟨name, t.span⟩] := by
  intro before hw _ _ hunended
  have hmark : w.mark t = [] := mark_of_kind (by rw [ht]; rfl)
  have hbody : headKind (w.body after) = some (.symbol .pipe) := by rw [headKind_body, hafter]
  obtain hlead | hlead := w.lead_eq after
  · rw [hlead, List.append_nil]
    exact (Reads.lastParameter hnl ht hnl' hbody).of_eq
      (by simp [put_append, put_cons hmark, put_newlines hnl, put_newlines hnl'])
  · rw [hlead]
    exact (Reads.moreParameters hnl ht hnl' w.added_kind (.noParameters newlines_nil hbody)).of_eq
      (by simp [put_append, put_cons hmark, put_newlines hnl, put_newlines hnl'])

/-- A parameter and its comma, before the others. -/
theorem moreParameters {opener : σ} {t comma : Token σ} {name : String}
    {params : List (Ident σ)} {nl nl' ts after : List (Token σ)} (hnl : Newlines nl)
    (ht : t.kind = .var name) (hnl' : Newlines nl') (hcomma : comma.kind = .symbol .comma)
    (ih : Trails w context (.parameters opener) ts after params) :
    Trails w context (.parameters opener) (nl ++ t :: (nl' ++ comma :: ts)) after
      (⟨name, t.span⟩ :: params) := by
  intro before hw _ _ hunended
  have hlast (hlead : w.lead after ≠ []) : Unended ts := by
    have hall : Unended ((nl ++ t :: nl') ++ comma :: ts) := by simpa using hunended hlead
    exact hall.behind hcomma
  have hrest := ih (before ++ (nl ++ t :: (nl' ++ [comma]))) (by simpa using hw) trivial trivial
    hlast
  exact (Reads.moreParameters hnl ht hnl' hcomma hrest).of_eq
    (by simp [put_append, put_cons_of_kind (t := t) (by rw [ht]; rfl),
      put_cons_of_kind (t := comma) (by rw [hcomma]; rfl), put_newlines hnl, put_newlines hnl'])

/-! ## expressions -/

theorem expression {floor : Nat} {left value : Expr σ} {ts us after : List (Token σ)}
    (ihleft : Trails w context .operand ts (us ++ after) left)
    (ihrest : Trails w context (.operators floor left) us after value) :
    Trails w context (.expression floor) (ts ++ us) after value := by
  intro before hw hclear _
  have hleft : Reads context .operand (w.put ts) (w.put (us ++ after)) left :=
    ihleft before (by simpa using hw) hclear.left trivial
  have hrest := ihrest (before ++ ts) (by simpa using hw) trivial trivial
  rw [put_append] at hleft
  exact (Reads.expression hleft hrest).of_eq (put_append ts us)

theorem noOperator {floor : Nat} {left : Expr σ} {after : List (Token σ)}
    (hafter : ∀ op, (headKind after).bind BinaryOp.ofKind? = some op → op.level < floor) :
    Trails w context (.operators floor left) [] after left := by
  intro before hw _ _
  refine .noOperator fun op hop => ?_
  obtain hhead | hhead := w.headKind_put after
  · rw [hhead] at hop
    exact hafter op hop
  · rw [hhead, w.added_kind] at hop
    cases hop

theorem operator {floor : Nat} {left right value : Expr σ} {t : Token σ} {op : BinaryOp}
    {nl ts us after : List (Token σ)} (ht : BinaryOp.ofKind? t.kind = some op)
    (hlevel : floor ≤ op.level) (hnl : Newlines nl)
    (ihright : Trails w context (.expression (op.level + 1)) ts (us ++ after) right)
    (ihrest : Trails w context
      (.operators floor (.binary (Location.merge left.span right.span) op left right))
      us after value) :
    Trails w context (.operators floor left) (t :: (nl ++ (ts ++ us))) after value := by
  intro before hw _ _
  have hcloses : t.kind.closesList = false := Kind.closesList_of_isInert (BinaryOp.inert ht)
  have hname : isName t.kind = false :=
    Kind.isName_of_isQuiet (Kind.isQuiet_of_isInert (BinaryOp.inert ht))
  have hright : Reads context (.expression (op.level + 1)) (w.put ts) (w.put (us ++ after))
      right :=
    ihright (before ++ t :: nl) (by simpa using hw) (clear_cons hname hnl ts) trivial
  have hrest := ihrest (before ++ t :: (nl ++ ts)) (by simpa using hw) trivial trivial
  rw [put_append] at hright
  exact (Reads.operator ht hlevel hnl hright hrest).of_eq (by
    simp [put_append, put_newlines hnl, put_cons_of_kind hcloses])

theorem sign {t : Token σ} {op : UnaryOp} {inner : Expr σ} {ts after : List (Token σ)}
    (ht : UnaryOp.ofKind? t.kind = some op) (ih : Trails w context .operand ts after inner) :
    Trails w context .operand (t :: ts) after
      (.unary (Location.merge t.span inner.span) op inner) := by
  intro before hw _ _
  have hname : isName t.kind = false :=
    Kind.isName_of_isQuiet (Kind.isQuiet_of_isInert (UnaryOp.inert ht))
  have hinner := ih (before ++ [t]) (by simpa using hw) (clear_single hname ts) trivial
  exact (Reads.sign ht hinner).of_eq
    (put_cons_of_kind (Kind.closesList_of_isInert (UnaryOp.inert ht)))

/-- Suffixes behind a primary expression. -/
theorem operand {first value : Expr σ} {ts us after : List (Token σ)}
    (ihfirst : Trails w context .primary ts (us ++ after) first)
    (ihrest : Trails w context (.suffixes first) us after value) :
    Trails w context .operand (ts ++ us) after value := by
  intro before hw hclear _
  have hfirst : Reads context .primary (w.put ts) (w.put (us ++ after)) first :=
    ihfirst before (by simpa using hw) hclear.left trivial
  have hrest := ihrest (before ++ ts) (by simpa using hw) trivial trivial
  rw [put_append] at hfirst
  exact (Reads.operand hfirst hrest).of_eq (put_append ts us)

theorem noSuffix {target : Expr σ} {after : List (Token σ)}
    (hdot : headKind after ≠ some (.symbol .dot))
    (hbracket : headKind after = some (.symbol .openBracket) → headTouches after = false) :
    Trails w context (.suffixes target) [] after target := by
  intro before hw _ _
  refine .noSuffix (headKind_put_ne hdot (by simp)) fun hhead => ?_
  obtain hlead | hlead := w.lead_eq after
  · rw [headKind_put_of_lead hlead] at hhead
    rw [headTouches_put_of_lead hlead, hbracket hhead]
  · rw [put_eq, hlead, List.singleton_append, headKind_cons, w.added_kind] at hhead
    cases hhead

/-- A method call, with its arguments between parentheses or none. -/
theorem method {target value : Expr σ} {dot t : Token σ} {name : String} {args : List (Expr σ)}
    {lambda : Option (Lambda σ)} {ts us vs after : List (Token σ)}
    (hdot : dot.kind = .symbol .dot) (ht : t.kind = .name name)
    (hargs : Reads context .optionalArguments ts (us ++ (vs ++ after)) args)
    (ihargs : Trails w context .optionalArguments ts (us ++ (vs ++ after)) args)
    (ihlambda : Trails w context .optionalLambda us (vs ++ after) lambda)
    (ihrest : Trails w context
      (.suffixes (.method (through target.span (dot :: t :: (ts ++ us))) target ⟨name, t.span⟩
        args lambda)) vs after value) :
    Trails w context (.suffixes target) (dot :: t :: (ts ++ (us ++ vs))) after value := by
  intro before hw _ _
  have hmark : w.mark dot = [] := mark_of_kind (by rw [hdot]; rfl)
  have hmark' : w.mark t = [] := mark_of_kind (by rw [ht]; rfl)
  have hbehind : BehindCall (before ++ dot :: t :: ts) := by
    rw [List.append_cons]
    exact hargs.behindCall ht
  have hthrough : through target.span (dot :: t :: (w.put ts ++ w.put us))
      = through target.span (dot :: t :: (ts ++ us)) := by
    rw [← w.through_put target.span (dot :: t :: (ts ++ us))]
    simp [put_append, put_cons hmark, put_cons hmark']
  have hargs : Reads context .optionalArguments (w.put ts) (w.put (us ++ (vs ++ after))) args :=
    ihargs (before ++ [dot, t]) (by simpa using hw) trivial trivial
  have hlambda : Reads context .optionalLambda (w.put us) (w.put (vs ++ after)) lambda :=
    ihlambda (before ++ dot :: t :: ts) (by simpa using hw) hbehind trivial
  have hrest : Reads context (.suffixes (.method
      (through target.span (dot :: t :: (w.put ts ++ w.put us))) target ⟨name, t.span⟩ args
        lambda)) (w.put vs) (w.put after) value := by
    rw [hthrough]
    exact ihrest (before ++ dot :: t :: (ts ++ us)) (by simpa using hw) trivial trivial
  simp only [put_append] at hargs hlambda
  exact (Reads.method hdot ht hargs hlambda hrest).of_eq
    (by simp [put_append, put_cons hmark, put_cons hmark'])

/-- The keys of an access: a comma may be put before the bracket. -/
theorem access {target value : Expr σ} {opener closer : Token σ} {keys : List (Expr σ)}
    {ts us after : List (Token σ)} (hopener : opener.kind = .symbol .openBracket)
    (htouching : opener.touching = true)
    (hkeys : Reads context (.elements .access) ts (closer :: (us ++ after)) keys)
    (hcloser : closer.kind = .symbol .closeBracket) (hne : keys ≠ [])
    (ihkeys : Trails w context (.elements .access) ts (closer :: (us ++ after)) keys)
    (ihrest : Trails w context
      (.suffixes (.access (Location.merge target.span closer.span) target keys)) us after value) :
    Trails w context (.suffixes target) (opener :: (ts ++ closer :: us)) after value := by
  intro before hw _ _
  have hlast (hmark : w.mark closer ≠ []) :
      headKind (closer :: (us ++ after)) = some (.symbol .closeBracket) ∧ Unended ts :=
    last_of_mark (by simpa using hw) (by rw [hopener]; rfl) hkeys.settles.closed hcloser rfl hmark
  have hkeys : Reads context (.elements .access) (w.put ts ++ w.mark closer)
      (w.place closer :: w.put (us ++ after)) keys :=
    ihkeys (before ++ [opener]) (by simpa using hw) (clear_single (by rw [hopener]; rfl) ts)
      trivial hlast
  have hrest := ihrest (before ++ opener :: (ts ++ [closer])) (by simpa using hw) trivial trivial
  rw [put_append] at hkeys
  exact (Reads.access hopener htouching hkeys hcloser hne hrest).of_eq (by
    rw [put_cons_of_kind (by rw [hopener]; rfl)]
    simp [put_append, put])

theorem var {t : Token σ} {name : String} {after : List (Token σ)} (ht : t.kind = .var name) :
    Trails w context .primary [t] after (.var t.span name) := by
  intro before hw _ _
  exact (Reads.var ht).of_eq (put_single (by rw [ht]; rfl))

theorem reference {t : Token σ} {name : String} {after : List (Token σ)}
    (ht : t.kind = .reference name) :
    Trails w context .primary [t] after (.reference t.span name) := by
  intro before hw _ _
  exact (Reads.reference ht).of_eq (put_single (by rw [ht]; rfl))

theorem literal {t : Token σ} {value : Literal} {after : List (Token σ)}
    (ht : Literal.ofKind? t.kind = some value) :
    Trails w context .primary [t] after (.literal t.span value) := by
  intro before hw _ _
  exact (Reads.literal ht).of_eq (put_single (Kind.closesList_of_isInert (Literal.inert ht)))

theorem name {value : Expr σ} {ts after : List (Token σ)}
    (ih : Trails w context .callOrWord ts after value) :
    Trails w context .primary ts after value := by
  intro before hw _ _
  exact .name (ih before hw trivial trivial)

/-- The elements of an array: a comma may be put before the bracket. -/
theorem array {opener closer : Token σ} {items : List (Expr σ)} {ts after : List (Token σ)}
    (hopener : opener.kind = .symbol .openBracket)
    (hitems : Reads context (.elements .array) ts (closer :: after) items)
    (hcloser : closer.kind = .symbol .closeBracket)
    (ih : Trails w context (.elements .array) ts (closer :: after) items) :
    Trails w context .primary (opener :: (ts ++ [closer])) after
      (.array (Location.merge opener.span closer.span) items) := by
  intro before hw _ _
  have hlast (hmark : w.mark closer ≠ []) :
      headKind (closer :: after) = some (.symbol .closeBracket) ∧ Unended ts :=
    last_of_mark (by simpa using hw) (by rw [hopener]; rfl) hitems.settles.closed hcloser rfl
      hmark
  have hitems : Reads context (.elements .array) (w.put ts ++ w.mark closer)
      (w.place closer :: w.put after) items :=
    ih (before ++ [opener]) (by simpa using hw) (clear_single (by rw [hopener]; rfl) ts) trivial
      hlast
  exact (Reads.array hopener hitems hcloser).of_eq (by
    rw [put_cons_of_kind (by rw [hopener]; rfl)]
    simp [put_append, put])

/-- The entries of a hash: a comma may be put before the brace. -/
theorem hash {opener closer : Token σ} {found : List (Entry σ)} {nl ts after : List (Token σ)}
    (hopener : opener.kind = .symbol .openBrace) (hnl : Newlines nl)
    (hfound : Reads context .entries ts (closer :: after) found)
    (hcloser : closer.kind = .symbol .closeBrace)
    (ih : Trails w context .entries ts (closer :: after) found) :
    Trails w context .primary (opener :: (nl ++ (ts ++ [closer]))) after
      (.hash (Location.merge opener.span closer.span) found) := by
  intro before hw _ _
  have hclosed : level 0 (nl ++ ts) = some 0 := ((Tidy.newlines hnl).append hfound.tidy).level 0
  have hlast (hmark : w.mark closer ≠ []) :
      headKind (closer :: after) = some (.symbol .closeBrace) ∧ Unended ts :=
    (last_of_mark (by simpa using hw) (by rw [hopener]; rfl) hclosed hcloser rfl hmark).imp_right
      (·.of_newlines hnl)
  have hfound : Reads context .entries (w.put ts ++ w.mark closer) (w.place closer :: w.put after)
      found :=
    ih (before ++ opener :: nl) (by simpa using hw) (clear_cons (by rw [hopener]; rfl) hnl ts)
      trivial hlast
  exact (Reads.hash hopener hnl hfound hcloser).of_eq (by
    rw [put_cons_of_kind (by rw [hopener]; rfl)]
    simp [put_append, put, put_newlines hnl])

/-- Parentheses around an expression are no list. -/
theorem parentheses {opener closer : Token σ} {inner : Expr σ}
    {nl nl' ts after : List (Token σ)} (hopener : opener.kind = .symbol .openParen)
    (hnl : Newlines nl) (hinner : Reads context (.expression 0) ts (nl' ++ closer :: after) inner)
    (hnl' : Newlines nl') (hcloser : closer.kind = .symbol .closeParen)
    (ih : Trails w context (.expression 0) ts (nl' ++ closer :: after) inner) :
    Trails w context .primary (opener :: (nl ++ (ts ++ (nl' ++ [closer])))) after
      (inner.withSpan (Location.merge opener.span closer.span)) := by
  intro before hw hclear _
  have hclosed : level 0 (nl ++ (ts ++ nl')) = some 0 :=
    ((Tidy.newlines hnl).append (hinner.tidy.append (.newlines hnl'))).level 0
  have hmark : w.mark closer = [] :=
    mark_of_parentheses (by simpa using hw) hopener hclosed hcloser
      (hclear (by rw [headKind_cons, hopener]))
  have hinner : Reads context (.expression 0) (w.put ts) (w.put (nl' ++ closer :: after)) inner :=
    ih (before ++ opener :: nl) (by simpa using hw) (clear_cons (by rw [hopener]; rfl) hnl ts)
      trivial
  rw [put_append, put_newlines hnl', put_cons hmark] at hinner
  exact (Reads.parentheses hopener hnl hinner hnl' hcloser).of_eq
    (by simp [put_append, put_cons hmark, put_newlines hnl, put_newlines hnl',
      put_cons_of_kind (t := opener) (by rw [hopener]; rfl)])

/-! ## lists -/

/-- No elements, so no comma is put. -/
theorem noElements {construct : Construct} {nl after : List (Token σ)} (hnl : Newlines nl)
    (hafter : ∀ k, headKind after = some k → k = .symbol construct.closer) :
    Trails w context (.elements construct) nl after [] := by
  intro before hw _ _ hends
  have hlead : w.lead after = [] := Decidable.not_not.1 fun hlead =>
    not_unended_newlines hnl (hends hlead).2
  rw [put_newlines hnl, hlead, List.append_nil]
  exact .noElements hnl (by rwa [headKind_body])

/-- The last element, behind which the comma is put. -/
theorem lastElement {construct : Construct} {item : Expr σ} {nl nl' ts after : List (Token σ)}
    (hnl : Newlines nl) (hnl' : Newlines nl') (hnewline : headKind after ≠ some .newline)
    (hcomma : headKind after ≠ some (.symbol .comma))
    (ih : Trails w context (.expression 0) ts (nl' ++ after) item) :
    Trails w context (.elements construct) (nl ++ (ts ++ nl')) after [item] := by
  intro before hw hclear _ hends
  have hitem : Reads context (.expression 0) (w.put ts) (w.put (nl' ++ after)) item :=
    ih (before ++ nl) (by simpa using hw) (hclear.newlines hnl).left trivial
  rw [put_append, put_newlines hnl', w.put_eq after] at hitem
  obtain hlead | hlead := w.lead_eq after
  · rw [hlead, List.nil_append] at hitem
    rw [hlead, List.append_nil]
    exact (Reads.lastElement hnl hitem hnl' (by rwa [headKind_body])
      (by rwa [headKind_body])).of_eq
        (by simp [put_append, put_newlines hnl, put_newlines hnl'])
  · have hcloser := (hends (by rw [hlead]; exact List.cons_ne_nil _ _)).1
    have hrest : Reads context (.elements construct) [] (w.body after) [] := by
      refine .noElements newlines_nil fun k hk => ?_
      rw [headKind_body, hcloser] at hk
      exact (Option.some.inj hk).symm
    rw [hlead] at hitem ⊢
    exact (Reads.moreElements hnl hitem hnl' w.added_kind hrest).of_eq
      (by simp [put_append, put_newlines hnl, put_newlines hnl'])

/-- An element with its comma, before the others. -/
theorem moreElements {construct : Construct} {item : Expr σ} {items : List (Expr σ)}
    {comma : Token σ} {nl nl' ts us after : List (Token σ)} (hnl : Newlines nl)
    (hnl' : Newlines nl') (hcomma : comma.kind = .symbol .comma)
    (ih : Trails w context (.expression 0) ts (nl' ++ comma :: (us ++ after)) item)
    (ihrest : Trails w context (.elements construct) us after items) :
    Trails w context (.elements construct) (nl ++ (ts ++ (nl' ++ comma :: us))) after
      (item :: items) := by
  intro before hw hclear _ hends
  have hlast (hlead : w.lead after ≠ []) :
      headKind after = some (.symbol construct.closer) ∧ Unended us := by
    obtain ⟨hcloser, hunended⟩ := hends hlead
    have hall : Unended ((nl ++ (ts ++ nl')) ++ comma :: us) := by simpa using hunended
    exact ⟨hcloser, hall.behind hcomma⟩
  have hmark : w.mark comma = [] := mark_of_kind (by rw [hcomma]; rfl)
  have hitem : Reads context (.expression 0) (w.put ts)
      (w.put (nl' ++ comma :: (us ++ after))) item :=
    ih (before ++ nl) (by simpa using hw) (hclear.newlines hnl).left trivial
  have hclear' : Clear ((before ++ (nl ++ (ts ++ nl'))) ++ [comma]) us :=
    clear_single (by rw [hcomma]; rfl) us
  have hrest := ihrest _ (by simpa using hw) hclear' trivial hlast
  rw [put_append, put_newlines hnl', put_cons hmark, put_append, w.put_eq after,
    ← List.append_assoc (w.put us)] at hitem
  exact (Reads.moreElements hnl hitem hnl' hcomma hrest).of_eq
    (by simp [put_append, put_cons hmark, put_newlines hnl, put_newlines hnl'])

/-- No entries, so no comma is put. -/
theorem noEntries {after : List (Token σ)}
    (hafter : ∀ k, headKind after = some k → k = .symbol .closeBrace) :
    Trails w context .entries [] after [] := by
  intro before hw _ _ hends
  have hlead : w.lead after = [] := Decidable.not_not.1 fun hlead =>
    not_unended_newlines (fun _ h => absurd h List.not_mem_nil) (hends hlead).2
  rw [hlead]
  exact .noEntries (by rwa [headKind_body])

theorem lastEntry {key value : Expr σ} {arrow : Token σ}
    {nl₁ nl₂ nl₃ ts us after : List (Token σ)} (hnl₁ : Newlines nl₁)
    (harrow : arrow.kind = .symbol .arrow) (hnl₂ : Newlines nl₂) (hnl₃ : Newlines nl₃)
    (hnewline : headKind after ≠ some .newline) (hcomma : headKind after ≠ some (.symbol .comma))
    (ihkey : Trails w context (.expression 0) ts
      (nl₁ ++ arrow :: (nl₂ ++ (us ++ (nl₃ ++ after)))) key)
    (ihvalue : Trails w context (.expression 0) us (nl₃ ++ after) value) :
    Trails w context .entries (ts ++ (nl₁ ++ arrow :: (nl₂ ++ (us ++ nl₃)))) after
      [⟨key, value⟩] := by
  intro before hw hclear _ hends
  have hmark : w.mark arrow = [] := mark_of_kind (by rw [harrow]; rfl)
  have hkey : Reads context (.expression 0) (w.put ts)
      (w.put (nl₁ ++ arrow :: (nl₂ ++ (us ++ (nl₃ ++ after))))) key :=
    ihkey before (by simpa using hw) hclear.left trivial
  have hclear' : Clear ((before ++ (ts ++ nl₁)) ++ arrow :: nl₂) us :=
    clear_cons (by rw [harrow]; rfl) hnl₂ us
  have hvalue : Reads context (.expression 0) (w.put us) (w.put (nl₃ ++ after)) value :=
    ihvalue _ (by simpa using hw) hclear' trivial
  simp only [put_append, put_newlines hnl₁, put_newlines hnl₂, put_newlines hnl₃,
    put_cons hmark, w.put_eq after] at hkey hvalue
  obtain hlead | hlead := w.lead_eq after
  · rw [hlead, List.nil_append] at hkey hvalue
    rw [hlead, List.append_nil]
    exact (Reads.lastEntry hkey hnl₁ harrow hnl₂ hvalue hnl₃ (by rwa [headKind_body])
      (by rwa [headKind_body])).of_eq
        (by simp [put_append, put_cons hmark, put_newlines hnl₁, put_newlines hnl₂,
          put_newlines hnl₃])
  · have hcloser := (hends (by rw [hlead]; exact List.cons_ne_nil _ _)).1
    have hbody : headKind (w.body after) = some (.symbol .closeBrace) := by
      rw [headKind_body, hcloser]
    have hrest : Reads context .entries [] (w.body after) [] := by
      refine .noEntries fun k hk => ?_
      rw [hbody] at hk
      exact (Option.some.inj hk).symm
    rw [hlead] at hkey hvalue ⊢
    exact (Reads.moreEntries hkey hnl₁ harrow hnl₂ hvalue hnl₃ w.added_kind newlines_nil
      (by rw [List.nil_append, hbody]; simp) hrest).of_eq
        (by simp [put_append, put_cons hmark, put_newlines hnl₁, put_newlines hnl₂,
          put_newlines hnl₃])

theorem moreEntries {key value : Expr σ} {found : List (Entry σ)} {arrow comma : Token σ}
    {nl₁ nl₂ nl₃ nl₄ ts us vs after : List (Token σ)} (hnl₁ : Newlines nl₁)
    (harrow : arrow.kind = .symbol .arrow) (hnl₂ : Newlines nl₂) (hnl₃ : Newlines nl₃)
    (hcomma : comma.kind = .symbol .comma) (hnl₄ : Newlines nl₄)
    (hnewline : headKind (vs ++ after) ≠ some .newline)
    (ihkey : Trails w context (.expression 0) ts
      (nl₁ ++ arrow :: (nl₂ ++ (us ++ (nl₃ ++ comma :: (nl₄ ++ (vs ++ after)))))) key)
    (ihvalue : Trails w context (.expression 0) us
      (nl₃ ++ comma :: (nl₄ ++ (vs ++ after))) value)
    (ihrest : Trails w context .entries vs after found) :
    Trails w context .entries
      (ts ++ (nl₁ ++ arrow :: (nl₂ ++ (us ++ (nl₃ ++ comma :: (nl₄ ++ vs)))))) after
      (⟨key, value⟩ :: found) := by
  intro before hw hclear _ hends
  have hmark : w.mark arrow = [] := mark_of_kind (by rw [harrow]; rfl)
  have hmark' : w.mark comma = [] := mark_of_kind (by rw [hcomma]; rfl)
  have hlast (hlead : w.lead after ≠ []) :
      headKind after = some (.symbol .closeBrace) ∧ Unended vs := by
    obtain ⟨hcloser, hunended⟩ := hends hlead
    have hall : Unended ((ts ++ (nl₁ ++ arrow :: (nl₂ ++ (us ++ nl₃)))) ++
        comma :: (nl₄ ++ vs)) := by simpa using hunended
    exact ⟨hcloser, (hall.behind hcomma).of_newlines hnl₄⟩
  have hkey : Reads context (.expression 0) (w.put ts) (w.put (nl₁ ++ arrow ::
      (nl₂ ++ (us ++ (nl₃ ++ comma :: (nl₄ ++ (vs ++ after))))))) key :=
    ihkey before (by simpa using hw) hclear.left trivial
  have hclear' : Clear ((before ++ (ts ++ nl₁)) ++ arrow :: nl₂) us :=
    clear_cons (by rw [harrow]; rfl) hnl₂ us
  have hvalue : Reads context (.expression 0) (w.put us)
      (w.put (nl₃ ++ comma :: (nl₄ ++ (vs ++ after)))) value :=
    ihvalue _ (by simpa using hw) hclear' trivial
  have hclear' :
      Clear ((before ++ (ts ++ (nl₁ ++ arrow :: (nl₂ ++ (us ++ nl₃))))) ++ comma :: nl₄)
      vs :=
    clear_cons (by rw [hcomma]; rfl) hnl₄ vs
  have hrest := ihrest _ (by simpa using hw) hclear' trivial hlast
  have hnewline' : headKind ((w.put vs ++ w.lead after) ++ w.body after) ≠ some .newline := by
    rw [List.append_assoc, ← put_eq, ← put_append]
    exact headKind_put_ne hnewline (by simp)
  simp only [put_append, put_newlines hnl₁, put_newlines hnl₂, put_newlines hnl₃,
    put_newlines hnl₄, put_cons hmark, put_cons hmark', w.put_eq after] at hkey hvalue
  rw [← List.append_assoc (w.put vs)] at hkey hvalue
  exact (Reads.moreEntries hkey hnl₁ harrow hnl₂ hvalue hnl₃ hcomma hnl₄ hnewline' hrest).of_eq
    (by simp [put_append, put_cons hmark, put_cons hmark', put_newlines hnl₁, put_newlines hnl₂,
      put_newlines hnl₃, put_newlines hnl₄])

theorem arguments {opener closer : Token σ} {args : List (Expr σ)} {ts after : List (Token σ)}
    (hopener : opener.kind = .symbol .openParen)
    (hargs : Reads context (.elements .argumentList) ts (closer :: after) args)
    (hcloser : closer.kind = .symbol .closeParen)
    (ih : Trails w context (.elements .argumentList) ts (closer :: after) args) :
    Trails w context .arguments (opener :: (ts ++ [closer])) after args := by
  intro before hw _ _
  have hlast (hmark : w.mark closer ≠ []) :
      headKind (closer :: after) = some (.symbol .closeParen) ∧ Unended ts :=
    last_of_mark (by simpa using hw) (by rw [hopener]; rfl) hargs.settles.closed hcloser rfl hmark
  have hargs : Reads context (.elements .argumentList) (w.put ts ++ w.mark closer)
      (w.place closer :: w.put after) args :=
    ih (before ++ [opener]) (by simpa using hw) (clear_single (by rw [hopener]; rfl) ts) trivial
      hlast
  exact (Reads.arguments hopener hargs hcloser).of_eq (by
    rw [put_cons_of_kind (by rw [hopener]; rfl)]
    simp [put_append, put])

theorem noArguments {after : List (Token σ)}
    (hafter : headKind after ≠ some (.symbol .openParen)) :
    Trails w context .optionalArguments [] after [] := by
  intro before hw _ _
  exact .noArguments (headKind_put_ne hafter (by simp))

theorem someArguments {args : List (Expr σ)} {ts after : List (Token σ)}
    (ih : Trails w context .arguments ts after args) :
    Trails w context .optionalArguments ts after args := by
  intro before hw _ _
  exact .someArguments (ih before hw trivial trivial)

/-- Arguments without parentheses have no closer, so no comma is put. -/
theorem bareArguments {first : Expr σ} {rest : List (Expr σ)} {ts us after : List (Token σ)}
    (ihfirst : Trails w context (.expression 0) ts (us ++ after) first)
    (ihrest : Trails w context .moreBareArguments us after rest) :
    Trails w context .bareArguments (ts ++ us) after (first :: rest) := by
  intro before hw hclear hlead
  have hfirst : Reads context (.expression 0) (w.put ts) (w.put (us ++ after)) first :=
    ihfirst before (by simpa using hw) hclear.left trivial
  have hrest := ihrest (before ++ ts) (by simpa using hw) trivial hlead
  rw [put_append] at hfirst
  exact (Reads.bareArguments hfirst hrest).of_eq (put_append ts us)

theorem noMoreArguments {after : List (Token σ)}
    (hafter : headKind after ≠ some (.symbol .comma)) :
    Trails w context .moreBareArguments [] after [] := by
  intro before hw _ hlead
  exact .noMoreArguments (by rwa [headKind_put_of_lead hlead])

theorem moreArguments {comma : Token σ} {first : Expr σ} {rest : List (Expr σ)}
    {nl ts us after : List (Token σ)} (hcomma : comma.kind = .symbol .comma) (hnl : Newlines nl)
    (ihfirst : Trails w context (.expression 0) ts (us ++ after) first)
    (ihrest : Trails w context .moreBareArguments us after rest) :
    Trails w context .moreBareArguments (comma :: (nl ++ (ts ++ us))) after (first :: rest) := by
  intro before hw _ hlead
  have hfirst : Reads context (.expression 0) (w.put ts) (w.put (us ++ after)) first :=
    ihfirst (before ++ comma :: nl) (by simpa using hw) (clear_cons (by rw [hcomma]; rfl) hnl ts)
      trivial
  have hrest := ihrest (before ++ comma :: (nl ++ ts)) (by simpa using hw) trivial hlead
  rw [put_append] at hfirst
  exact (Reads.moreArguments hcomma hnl hfirst hrest).of_eq
    (by simp [put_append, put_newlines hnl, put_cons_of_kind (t := comma) (by rw [hcomma]; rfl)])

/-! ## calls -/

theorem word {t : Token σ} {name : String} {after : List (Token σ)} (ht : t.kind = .name name)
    (hafter : headKind after ≠ some (.symbol .openParen)) :
    Trails w context .callOrWord [t] after (.word t.span name) := by
  intro before hw _ _
  exact (Reads.word ht (headKind_put_ne hafter (by simp))).of_eq (put_single (by rw [ht]; rfl))

theorem call {t : Token σ} {name : String} {value : Expr σ} {ts after : List (Token σ)}
    (ht : t.kind = .name name) (ih : Trails w context (.callOf ⟨name, t.span⟩) ts after value) :
    Trails w context .callOrWord (t :: ts) after value := by
  intro before hw _ _
  have hcall := ih (before ++ [t]) (by simpa using hw) trivial trivial
  exact (Reads.call ht hcall).of_eq (put_cons_of_kind (by rw [ht]; rfl))

/-- Arguments and a lambda behind a name. -/
theorem callOf {callee : Ident σ} {args : List (Expr σ)} {lambda : Option (Lambda σ)}
    {ts us after : List (Token σ)} (hargs : Reads context .arguments ts (us ++ after) args)
    (ihargs : Trails w context .arguments ts (us ++ after) args)
    (ihlambda : Trails w context .optionalLambda us after lambda) :
    Trails w context (.callOf callee) (ts ++ us) after
      (.call (through callee.span (ts ++ us)) callee args lambda) := by
  intro before hw _ _
  have hbehind : BehindCall (before ++ ts) :=
    .inl (by rw [lastKind_append, hargs.lastKind_arguments])
  have hargs : Reads context .arguments (w.put ts) (w.put (us ++ after)) args :=
    ihargs before (by simpa using hw) trivial trivial
  have hlambda := ihlambda (before ++ ts) (by simpa using hw) hbehind trivial
  rw [put_append] at hargs
  have hcall : Reads context (.callOf callee) (w.put ts ++ w.put us) (w.put after)
      (.call (through callee.span (w.put ts ++ w.put us)) callee args lambda) :=
    .callOf hargs hlambda
  rwa [← put_append, through_put] at hcall

theorem noLambda {after : List (Token σ)} (hpipe : headKind after ≠ some (.symbol .pipe))
    (hpipes : headKind after ≠ some (.symbol .pipePipe)) :
    Trails w context .optionalLambda [] after none := by
  intro before hw _ _
  exact .noLambda (headKind_put_ne hpipe (by simp)) (headKind_put_ne hpipes (by simp))

theorem someLambda {lambda : Lambda σ} {ts after : List (Token σ)}
    (ih : Trails w context .lambda ts after lambda) :
    Trails w context .optionalLambda ts after (some lambda) := by
  intro before hw hbehind _
  exact .someLambda (ih before hw hbehind trivial)

theorem lambdaNoList {t : Token σ} {lambda : Lambda σ} {ts after : List (Token σ)}
    (ht : t.kind = .symbol .pipePipe)
    (ih : Trails w context (.lambdaBody t.span []) ts after lambda) :
    Trails w context .lambda (t :: ts) after lambda := by
  intro before hw _ _
  have hbody := ih (before ++ [t]) (by simpa using hw) trivial trivial
  exact (Reads.lambdaNoList ht hbody).of_eq (put_cons_of_kind (by rw [ht]; rfl))

theorem lambda {opener closer : Token σ} {params : List (Ident σ)} {lambda : Lambda σ}
    {ts us after : List (Token σ)} (hopener : opener.kind = .symbol .pipe)
    (hparams : Reads context (.parameters opener.span) ts (closer :: (us ++ after)) params)
    (hcloser : closer.kind = .symbol .pipe)
    (ihparams : Trails w context (.parameters opener.span) ts (closer :: (us ++ after)) params)
    (ihbody : Trails w context (.lambdaBody opener.span params) us after lambda) :
    Trails w context .lambda (opener :: (ts ++ closer :: us)) after lambda := by
  intro before hw hbehind _
  -- The bar behind a call opens the parameters, so a marked bar can be the other one only.
  have hmark : w.mark opener = [] :=
    mark_of_behindCall (by simpa using hw) hopener hbehind
  have hlast (hmark : w.mark closer ≠ []) : Unended ts := by
    have hinside : w.tokens = (before ++ opener :: ts) ++ closer :: (us ++ after) := by
      simpa using hw
    obtain ⟨before', opener', items, heq, hopener', hitems, hunended⟩ :=
      parameters_of_mark hinside hcloser hmark
    rwa [eq_of_parameters heq hopener hopener' (hparams.parameters_all rfl) hitems]
  have hparams : Reads context (.parameters opener.span) (w.put ts ++ w.mark closer)
      (w.place closer :: w.put (us ++ after)) params :=
    ihparams (before ++ [opener]) (by simpa using hw) trivial trivial hlast
  have hbody := ihbody (before ++ opener :: (ts ++ [closer])) (by simpa using hw) trivial trivial
  rw [put_append] at hparams
  exact (Reads.lambda hopener hparams hcloser hbody).of_eq (by
    rw [put_cons hmark]
    simp [put_append, put])

theorem lambdaBody {opener : σ} {params : List (Ident σ)} {body : Block σ}
    {nl ts after : List (Token σ)} (hnl : Newlines nl)
    (ih : Trails w context (.block .lambdaBody) ts after body) :
    Trails w context (.lambdaBody opener params) (nl ++ ts) after
      ⟨through opener ts, params, body⟩ := by
  intro before hw _ _
  have hbody := ih (before ++ nl) (by simpa using hw) trivial rfl
  have hlambda : Reads context (.lambdaBody opener params) (nl ++ w.put ts) (w.put after)
      ⟨through opener (w.put ts), params, body⟩ := .lambdaBody hnl hbody
  rw [through_put] at hlambda
  exact hlambda.of_eq (by rw [put_append, put_newlines hnl])

/-- The braces of a block are no list. -/
theorem block {construct : Construct} {opener closer : Token σ} {stmts : List (Stmt σ)}
    {ts after : List (Token σ)} (hopener : opener.kind = .symbol .openBrace)
    (hstmts : Reads context .statements ts (closer :: after) stmts)
    (hcloser : closer.kind = .symbol construct.closer)
    (ih : Trails w context .statements ts (closer :: after) stmts) :
    Trails w context (.block construct) (opener :: (ts ++ [closer])) after
      ⟨Location.merge opener.span closer.span, stmts⟩ := by
  intro before hw _ hbrace
  have hmark : w.mark closer = [] :=
    mark_of_block (by simpa using hw) hopener hstmts.settles.closed hstmts.settles.plain
      (hcloser.trans (congrArg Kind.symbol hbrace))
  have hstmts : Reads context .statements (w.put ts) (w.put (closer :: after)) stmts :=
    ih (before ++ [opener]) (by simpa using hw) (clear_single (by rw [hopener]; rfl) ts) hmark
  rw [put_cons hmark] at hstmts
  exact (Reads.block hopener hstmts hcloser).of_eq
    (by simp [put_append, put_cons hmark, put_cons_of_kind (t := opener) (by rw [hopener]; rfl)])

/-! ## statements -/

theorem noStatements {seps after : List (Token σ)} (hseps : Separators seps)
    (hafter : ∀ k, headKind after = some k → k = .symbol .closeBrace) :
    Trails w context .statements seps after [] := by
  intro before hw _ hlead
  have hafter : ∀ k, headKind (w.put after) = some k → k = .symbol .closeBrace := by
    rwa [headKind_put_of_lead hlead]
  exact (Reads.noStatements hseps hafter).of_eq (put_separators hseps)

/-- A statement before the others. -/
theorem moreStatements {first : Stmt σ} {rest : List (Stmt σ)}
    {seps ts us after : List (Token σ)} (hseps : Separators seps)
    (hfirst : Reads context .statement ts (us ++ after) first)
    (hcomma : headKind (us ++ after) ≠ some (.symbol .comma))
    (hrest : Reads context .statements us after rest)
    (ihfirst : Trails w context .statement ts (us ++ after) first)
    (ihrest : Trails w context .statements us after rest) :
    Trails w context .statements (seps ++ (ts ++ us)) after (first :: rest) := by
  intro before hw hclear hlead
  -- A statement that ends in a name is followed by no parenthesis.
  have hclear' : Clear ((before ++ seps) ++ ts) us := by
    intro hparen name hname
    obtain ⟨t, vs, rfl, -⟩ : BeginsWith beginsStatement ts := hfirst.opens
    rw [lastKind_append] at hname
    cases us with
    | nil => cases hparen
    | cons u us => exact hfirst.settles.last name hname hparen
  have hlead' : w.lead (us ++ after) = [] := hrest.lead_statements hlead
  have hfirst : Reads context .statement (w.put ts) (w.put (us ++ after)) first :=
    ihfirst (before ++ seps) (by simpa using hw) (hclear.front (hseps.all rfl rfl)).left hlead'
  have hrest := ihrest _ (by simpa using hw) hclear' hlead
  have hcomma : headKind (w.put us ++ w.put after) ≠ some (.symbol .comma) := by
    rwa [← put_append, headKind_put_of_lead hlead']
  rw [put_append] at hfirst
  exact (Reads.moreStatements hseps hfirst hcomma hrest).of_eq
    (by simp [put_append, put_separators hseps])

theorem branching {sense : Sense} {stmt : Stmt σ} {t : Token σ} {ts after : List (Token σ)}
    (ht : t.kind = .keyword .ifWord ∧ sense = .ifTrue ∨
      t.kind = .keyword .unlessWord ∧ sense = .unlessTrue)
    (ih : Trails w context (.conditional sense) (t :: ts) after stmt) :
    Trails w context .statement (t :: ts) after stmt := by
  intro before hw _ _
  have hmark : w.mark t = [] := by
    obtain ⟨ht, -⟩ | ⟨ht, -⟩ := ht <;> exact mark_of_kind (by rw [ht]; rfl)
  have hput : w.put (t :: ts) = t :: w.put ts := by rw [put_cons hmark]
  have hstmt : Reads context (.conditional sense) (w.put (t :: ts)) (w.put after) stmt :=
    ih before hw trivial trivial
  rw [hput] at hstmt
  exact (Reads.branching ht hstmt).of_eq hput

theorem invocation {stmt : Stmt σ} {ts after : List (Token σ)}
    (ih : Trails w context .callable ts after (.statement stmt)) :
    Trails w context .statement ts after stmt := by
  intro before hw _ hlead
  exact .invocation (ih before hw trivial hlead)

theorem callableValue {expr : Expr σ} {stmt : Stmt σ} {ts us after : List (Token σ)}
    (hstmt : Reads context (.valueStatement expr) us after stmt)
    (ih : Trails w context .callable ts (us ++ after) (.value expr))
    (ihstmt : Trails w context (.valueStatement expr) us after stmt) :
    Trails w context .statement (ts ++ us) after stmt := by
  intro before hw _ hlead
  have hcallable : Reads context .callable (w.put ts) (w.put (us ++ after)) (.value expr) :=
    ih before (by simpa using hw) trivial (hstmt.lead_valueStatement hlead)
  have hstmt := ihstmt (before ++ ts) (by simpa using hw) trivial trivial
  rw [put_append] at hcallable
  exact (Reads.callableValue hcallable hstmt).of_eq (put_append ts us)

theorem value {expr : Expr σ} {stmt : Stmt σ} {ts us after : List (Token σ)}
    (hname : ∀ name, headKind ts ≠ some (.name name))
    (ih : Trails w context (.expression 0) ts (us ++ after) expr)
    (ihstmt : Trails w context (.valueStatement expr) us after stmt) :
    Trails w context .statement (ts ++ us) after stmt := by
  intro before hw hclear _
  have hname (name : String) : headKind (w.put ts) ≠ some (.name name) :=
    headKind_put_ne (hname name) (by simp)
  have hexpr : Reads context (.expression 0) (w.put ts) (w.put (us ++ after)) expr :=
    ih before (by simpa using hw) hclear.left trivial
  have hstmt := ihstmt (before ++ ts) (by simpa using hw) trivial trivial
  rw [put_append] at hexpr
  exact (Reads.value hname hexpr hstmt).of_eq (put_append ts us)

theorem assignment {target value : Expr σ} {t : Token σ} {nl ts after : List (Token σ)}
    (ht : t.kind = .symbol .assign) (htarget : target.isAssignable = true) (hnl : Newlines nl)
    (ih : Trails w context (.expression 0) ts after value) :
    Trails w context (.valueStatement target) (t :: (nl ++ ts)) after
      (.assign (Location.merge target.span value.span) target value) := by
  intro before hw _ _
  have hvalue := ih (before ++ t :: nl) (by simpa using hw)
    (clear_cons (by rw [ht]; rfl) hnl ts) trivial
  exact (Reads.assignment ht htarget hnl hvalue).of_eq
    (by simp [put_append, put_newlines hnl, put_cons_of_kind (t := t) (by rw [ht]; rfl)])

theorem noAssignment {value : Expr σ} {after : List (Token σ)}
    (hafter : headKind after ≠ some (.symbol .assign)) :
    Trails w context (.valueStatement value) [] after (.expr value.span value) := by
  intro before hw _ _
  exact .noAssignment (headKind_put_ne hafter (by simp))

/-- The condition, its branch and the alternative. -/
theorem conditional {sense : Sense} {t : Token σ} {condition : Expr σ} {thenBranch : Block σ}
    {elseBranch : Option (Block σ)} {ts us vs after : List (Token σ)}
    (ht : opensCondition sense t.kind = true)
    (ihcondition : Trails w context (.expression 0) ts (us ++ (vs ++ after)) condition)
    (ihthen : Trails w context (.block (Grammar.branchConstruct sense)) us (vs ++ after)
      thenBranch)
    (ihelse : Trails w context (.alternative sense) vs after elseBranch) :
    Trails w context (.conditional sense) (t :: (ts ++ (us ++ vs))) after
      (.conditional (through t.span (ts ++ (us ++ vs))) sense condition thenBranch
        elseBranch) := by
  intro before hw _ _
  have hname : isName t.kind = false :=
    Kind.isName_of_isQuiet (Kind.isQuiet_of_opensCondition ht)
  have hcondition : Reads context (.expression 0) (w.put ts) (w.put (us ++ (vs ++ after)))
      condition :=
    ihcondition (before ++ [t]) (by simpa using hw) (clear_single hname ts) trivial
  have hthen : Reads context (.block (Grammar.branchConstruct sense)) (w.put us)
      (w.put (vs ++ after)) thenBranch :=
    ihthen (before ++ t :: ts) (by simpa using hw) trivial (Grammar.closer_branchConstruct sense)
  have helse := ihelse (before ++ t :: (ts ++ us)) (by simpa using hw) trivial trivial
  simp only [put_append] at hcondition hthen
  have hconditional : Reads context (.conditional sense)
      (t :: (w.put ts ++ (w.put us ++ w.put vs))) (w.put after)
      (.conditional (through t.span (w.put ts ++ (w.put us ++ w.put vs))) sense condition
        thenBranch elseBranch) := .conditional ht hcondition hthen helse
  rw [← put_append, ← put_append, through_put] at hconditional
  exact hconditional.of_eq (put_cons_of_kind (Kind.closesList_of_opensCondition ht))

theorem noAlternative {sense : Sense} {after : List (Token σ)}
    (helsif : sense = .ifTrue → headKindPastNewlines after ≠ some (.keyword .elsifWord))
    (helse : headKindPastNewlines after ≠ some (.keyword .elseWord)) :
    Trails w context (.alternative sense) [] after none := by
  intro before hw _ _
  exact .noAlternative (fun hsense => headKindPastNewlines_put_ne (helsif hsense))
    (headKindPastNewlines_put_ne helse)

theorem elsifAlternative {nested : Stmt σ} {t : Token σ} {nl ts after : List (Token σ)}
    (hnl : Newlines nl) (ht : t.kind = .keyword .elsifWord)
    (ih : Trails w context (.conditional .ifTrue) (t :: ts) after nested) :
    Trails w context (.alternative .ifTrue) (nl ++ t :: ts) after
      (some ⟨nested.span, [nested]⟩) := by
  intro before hw _ _
  have hput : w.put (t :: ts) = t :: w.put ts := put_cons_of_kind (by rw [ht]; rfl)
  have hnested : Reads context (.conditional .ifTrue) (w.put (t :: ts)) (w.put after) nested :=
    ih (before ++ nl) (by simpa using hw) trivial trivial
  rw [hput] at hnested
  exact (Reads.elsifAlternative hnl ht hnested).of_eq
    (by rw [put_append, put_newlines hnl, hput])

theorem elseAlternative {sense : Sense} {body : Block σ} {t : Token σ}
    {nl ts after : List (Token σ)} (hnl : Newlines nl) (ht : t.kind = .keyword .elseWord)
    (ih : Trails w context (.block .elseBody) ts after body) :
    Trails w context (.alternative sense) (nl ++ t :: ts) after (some body) := by
  intro before hw _ _
  have hbody := ih (before ++ (nl ++ [t])) (by simpa using hw) trivial rfl
  exact (Reads.elseAlternative hnl ht hbody).of_eq
    (by rw [put_append, put_newlines hnl, put_cons_of_kind (by rw [ht]; rfl)])

theorem wholeCall {t : Token σ} {name : String} {call : Expr σ} {span : σ} {callee : Ident σ}
    {args : List (Expr σ)} {lambda : Option (Lambda σ)} {ts us after : List (Token σ)}
    (ht : t.kind = .name name) (hafter : headKind after ≠ some (.symbol .assign))
    (ihcall : Trails w context (.callOf ⟨name, t.span⟩) ts (us ++ after) call)
    (ihrest : Trails w context (.continued call) us after (.call span callee args lambda)) :
    Trails w context .callable (t :: (ts ++ us)) after
      (.statement (.invoke span callee args lambda)) := by
  intro before hw _ _
  have hcall : Reads context (.callOf ⟨name, t.span⟩) (w.put ts) (w.put (us ++ after)) call :=
    ihcall (before ++ [t]) (by simpa using hw) trivial trivial
  have hrest := ihrest (before ++ t :: ts) (by simpa using hw) trivial trivial
  rw [put_append] at hcall
  exact (Reads.wholeCall ht hcall hrest (headKind_put_ne hafter (by simp))).of_eq
    (by rw [put_cons_of_kind (by rw [ht]; rfl), put_append])

theorem callValue {t : Token σ} {name : String} {call whole : Expr σ}
    {ts us after : List (Token σ)} (ht : t.kind = .name name)
    (hwhole : (∃ span callee args lambda, whole = .call span callee args lambda) →
      headKind after = some (.symbol .assign))
    (ihcall : Trails w context (.callOf ⟨name, t.span⟩) ts (us ++ after) call)
    (ihrest : Trails w context (.continued call) us after whole) :
    Trails w context .callable (t :: (ts ++ us)) after (.value whole) := by
  intro before hw _ _
  have hcall : Reads context (.callOf ⟨name, t.span⟩) (w.put ts) (w.put (us ++ after)) call :=
    ihcall (before ++ [t]) (by simpa using hw) trivial trivial
  have hrest := ihrest (before ++ t :: ts) (by simpa using hw) trivial trivial
  have hassign (hcall : ∃ span callee args lambda, whole = .call span callee args lambda) :
      headKind (w.put after) = some (.symbol .assign) := by
    rw [headKind_put_of_lead (lead_of_headKind (hwhole hcall) rfl), hwhole hcall]
  rw [put_append] at hcall
  exact (Reads.callValue ht hcall hrest hassign).of_eq
    (by rw [put_cons_of_kind (by rw [ht]; rfl), put_append])

theorem bareCall {t : Token σ} {name : String} {args : List (Expr σ)}
    {ts after : List (Token σ)} (ht : t.kind = .name name)
    (hbegins :
      Grammar.beginsArgument (headKind (ts ++ after)) (headTouches (ts ++ after)) = true)
    (hargs : Reads context .bareArguments ts after args)
    (hcount : args.length ≤ 1 ∨ name ∈ context.calls)
    (ih : Trails w context .bareArguments ts after args) :
    Trails w context .callable (t :: ts) after
      (.statement (.invoke (through t.span ts) ⟨name, t.span⟩ args none)) := by
  intro before hw _ hlead
  obtain ⟨u, vs, rfl, hu⟩ : BeginsWith beginsExpression ts := hargs.opens
  have hclear : Clear (before ++ [t]) (u :: vs) := by
    intro hparen
    rw [headKind_cons] at hparen
    rw [List.cons_append, headKind_cons, hparen] at hbegins
    cases hbegins
  have hput : w.put (u :: vs) = u :: w.put vs :=
    put_cons_of_kind (Kind.closesList_of_beginsStatement (beginsStatement_of_beginsExpression _ hu))
  have hargs : Reads context .bareArguments (w.put (u :: vs)) (w.put after) args :=
    ih (before ++ [t]) (by simpa using hw) hclear hlead
  have hbegins : Grammar.beginsArgument (headKind (w.put (u :: vs) ++ w.put after))
      (headTouches (w.put (u :: vs) ++ w.put after)) = true := by
    rw [hput]
    exact hbegins
  have hcall : Reads context .callable (t :: w.put (u :: vs)) (w.put after)
      (.statement (.invoke (through t.span (w.put (u :: vs))) ⟨name, t.span⟩ args none)) :=
    .bareCall ht hbegins hargs hcount
  rw [through_put] at hcall
  exact hcall.of_eq (put_cons_of_kind (by rw [ht]; rfl))

theorem wordValue {t : Token σ} {name : String} {whole : Expr σ} {ts after : List (Token σ)}
    (ht : t.kind = .name name) (hparen : headKind (ts ++ after) ≠ some (.symbol .openParen))
    (hbegins :
      Grammar.beginsArgument (headKind (ts ++ after)) (headTouches (ts ++ after)) = false)
    (ih : Trails w context (.continued (.word t.span name)) ts after whole) :
    Trails w context .callable (t :: ts) after (.value whole) := by
  intro before hw _ _
  have hparen : headKind (w.put ts ++ w.put after) ≠ some (.symbol .openParen) := by
    rw [← put_append]
    exact headKind_put_ne hparen (by simp)
  have hbegins : Grammar.beginsArgument (headKind (w.put ts ++ w.put after))
      (headTouches (w.put ts ++ w.put after)) = false := by
    rw [← put_append]
    obtain hlead | hlead := w.lead_eq (ts ++ after)
    · rwa [headKind_put_of_lead hlead, headTouches_put_of_lead hlead]
    · rw [put_eq, hlead, List.singleton_append, headKind_cons, w.added_kind]
      rfl
  have hrest := ih (before ++ [t]) (by simpa using hw) trivial trivial
  exact (Reads.wordValue ht hparen hbegins hrest).of_eq (put_cons_of_kind (by rw [ht]; rfl))

theorem continued {first left value : Expr σ} {ts us after : List (Token σ)}
    (ihleft : Trails w context (.suffixes first) ts (us ++ after) left)
    (ihrest : Trails w context (.operators 0 left) us after value) :
    Trails w context (.continued first) (ts ++ us) after value := by
  intro before hw _ _
  have hleft : Reads context (.suffixes first) (w.put ts) (w.put (us ++ after)) left :=
    ihleft before (by simpa using hw) trivial trivial
  have hrest := ihrest (before ++ ts) (by simpa using hw) trivial trivial
  rw [put_append] at hleft
  exact (Reads.continued hleft hrest).of_eq (put_append ts us)

theorem noProgram {ts : List (Token σ)} (hstmts : Reads context .statements ts [] [])
    (ih : Trails w context .statements ts [] []) :
    Trails w context .program ts [] ⟨⟨(Cursor.start ts).place context.finish, []⟩⟩ := by
  rintro _ hw rfl _
  have hstart : w.lead (ts ++ []) = [] := hstmts.lead_statements rfl
  rw [List.append_nil] at hstart
  have hprogram : Reads context .program (w.put ts) [] _ :=
    .noProgram (ih [] hw (clear_nil _) rfl)
  rwa [place_put_of_lead hstart] at hprogram

theorem program {stmts : List (Stmt σ)} {ts : List (Token σ)}
    (hstmts : Reads context .statements ts [] stmts) (hne : stmts ≠ [])
    (ih : Trails w context .statements ts [] stmts) :
    Trails w context .program ts []
      ⟨⟨through ((Cursor.start ts).place context.finish) ts, stmts⟩⟩ := by
  rintro _ hw rfl _
  have hstart : w.lead (ts ++ []) = [] := hstmts.lead_statements rfl
  rw [List.append_nil] at hstart
  have hprogram : Reads context .program (w.put ts) [] _ :=
    .program (ih [] hw (clear_nil _) rfl) hne
  rwa [place_put_of_lead hstart, through_put] at hprogram

end Phrase.Trails

/-- Wherever a phrase stands, it derives with the commas. -/
theorem Reads.trails {w : Trailing σ} {context : Context σ} {p : Phrase σ}
    {ts after : List (Token σ)} {v : p.Value} (h : Reads context p ts after v) :
    p.Trails w context ts after v := by
  induction h with
  | noParameters hnl hafter => exact .noParameters hnl hafter
  | lastParameter hnl ht hnl' hafter => exact .lastParameter hnl ht hnl' hafter
  | moreParameters hnl ht hnl' hcomma _ ih => exact .moreParameters hnl ht hnl' hcomma ih
  | expression _ _ ihleft ihrest => exact .expression ihleft ihrest
  | noOperator hafter => exact .noOperator hafter
  | operator ht hlevel hnl _ _ ihright ihrest => exact .operator ht hlevel hnl ihright ihrest
  | sign ht _ ih => exact .sign ht ih
  | operand _ _ ihfirst ihrest => exact .operand ihfirst ihrest
  | noSuffix hdot hbracket => exact .noSuffix hdot hbracket
  | method hdot ht hargs _ _ ihargs ihlambda ihrest =>
    exact .method hdot ht hargs ihargs ihlambda ihrest
  | access hopener htouching hkeys hcloser hne _ ihkeys ihrest =>
    exact .access hopener htouching hkeys hcloser hne ihkeys ihrest
  | var ht => exact .var ht
  | reference ht => exact .reference ht
  | literal ht => exact .literal ht
  | name _ ih => exact .name ih
  | array hopener hitems hcloser ih => exact .array hopener hitems hcloser ih
  | hash hopener hnl hfound hcloser ih => exact .hash hopener hnl hfound hcloser ih
  | parentheses hopener hnl hinner hnl' hcloser ih =>
    exact .parentheses hopener hnl hinner hnl' hcloser ih
  | noElements hnl hafter => exact .noElements hnl hafter
  | lastElement hnl _ hnl' hnewline hcomma ih => exact .lastElement hnl hnl' hnewline hcomma ih
  | moreElements hnl _ hnl' hcomma _ ih ihrest => exact .moreElements hnl hnl' hcomma ih ihrest
  | noEntries hafter => exact .noEntries hafter
  | lastEntry _ hnl₁ harrow hnl₂ _ hnl₃ hnewline hcomma ihkey ihvalue =>
    exact .lastEntry hnl₁ harrow hnl₂ hnl₃ hnewline hcomma ihkey ihvalue
  | moreEntries _ hnl₁ harrow hnl₂ _ hnl₃ hcomma hnl₄ hnewline _ ihkey ihvalue ihrest =>
    exact .moreEntries hnl₁ harrow hnl₂ hnl₃ hcomma hnl₄ hnewline ihkey ihvalue ihrest
  | arguments hopener hargs hcloser ih => exact .arguments hopener hargs hcloser ih
  | noArguments hafter => exact .noArguments hafter
  | someArguments _ ih => exact .someArguments ih
  | bareArguments _ _ ihfirst ihrest => exact .bareArguments ihfirst ihrest
  | noMoreArguments hafter => exact .noMoreArguments hafter
  | moreArguments hcomma hnl _ _ ihfirst ihrest => exact .moreArguments hcomma hnl ihfirst ihrest
  | word ht hafter => exact .word ht hafter
  | call ht _ ih => exact .call ht ih
  | callOf hargs _ ihargs ihlambda => exact .callOf hargs ihargs ihlambda
  | noLambda hpipe hpipes => exact .noLambda hpipe hpipes
  | someLambda _ ih => exact .someLambda ih
  | lambdaNoList ht _ ih => exact .lambdaNoList ht ih
  | lambda hopener hparams hcloser _ ihparams ihbody =>
    exact .lambda hopener hparams hcloser ihparams ihbody
  | lambdaBody hnl _ ih => exact .lambdaBody hnl ih
  | block hopener hstmts hcloser ih => exact .block hopener hstmts hcloser ih
  | noStatements hseps hafter => exact .noStatements hseps hafter
  | moreStatements hseps hfirst hcomma hrest ihfirst ihrest =>
    exact .moreStatements hseps hfirst hcomma hrest ihfirst ihrest
  | branching ht _ ih => exact .branching ht ih
  | invocation _ ih => exact .invocation ih
  | callableValue _ hstmt ih ihstmt => exact .callableValue hstmt ih ihstmt
  | value hname _ _ ih ihstmt => exact .value hname ih ihstmt
  | assignment ht htarget hnl _ ih => exact .assignment ht htarget hnl ih
  | noAssignment hafter => exact .noAssignment hafter
  | conditional ht _ _ _ ihcondition ihthen ihelse =>
    exact .conditional ht ihcondition ihthen ihelse
  | noAlternative helsif helse => exact .noAlternative helsif helse
  | elsifAlternative hnl ht _ ih => exact .elsifAlternative hnl ht ih
  | elseAlternative hnl ht _ ih => exact .elseAlternative hnl ht ih
  | wholeCall ht _ _ hafter ihcall ihrest => exact .wholeCall ht hafter ihcall ihrest
  | callValue ht _ _ hwhole ihcall ihrest => exact .callValue ht hwhole ihcall ihrest
  | bareCall ht hbegins hargs hcount ih => exact .bareCall ht hbegins hargs hcount ih
  | wordValue ht hparen hbegins _ ih => exact .wordValue ht hparen hbegins ih
  | continued _ _ ihleft ihrest => exact .continued ihleft ihrest
  | noProgram hstmts ih => exact .noProgram hstmts ih
  | program hstmts hne ih => exact .program hstmts hne ih

/-- A source unit is the same with commas before the closers of its lists. -/
theorem Trailing.reads_program {w : Trailing σ} {context : Context σ} {v : Program σ}
    (h : Reads context .program w.tokens [] v) : Reads context .program (w.put w.tokens) [] v :=
  h.trails [] (List.append_nil w.tokens).symm rfl trivial

end CallGrammar
