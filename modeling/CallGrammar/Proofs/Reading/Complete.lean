import CallGrammar.Proofs.StatementCalls
import CallGrammar.Proofs.Reading.Steps

/-!
# CallGrammar.Proofs.Reading.Complete

The completeness of the grammar: tokens that derive a value are read as it.  Each
rule gets one lemma, which supposes completeness for the phrases it is made of;
`Reads.complete` puts them together.
-/

namespace CallGrammar

variable {σ : Type}

/-! ## phrases -/

variable [Location σ]

/-- Behind the entries of a hash its closer comes next, or an entry: no line break. -/
theorem Reads.not_newline_of_entries {context : Context σ} {ts after : List (Token σ)}
    {closer : Token σ} {found : List (Entry σ)}
    (h : Reads context .entries ts (closer :: after) found)
    (hcloser : closer.kind = .symbol .closeBrace) :
    headKind (ts ++ closer :: after) ≠ some .newline := by
  cases h with
  | noEntries => simp [hcloser]
  | lastEntry hkey => exact (hkey.opens.append _).not_newline _
  | moreEntries hkey => exact (hkey.opens.append _).not_newline _

/-- With any number of nested calls but none, the tokens are read as the value or the calls
run out. -/
def Complete (context : Context σ) (p : Phrase σ) (ts after : List (Token σ)) (v : p.Value) :
    Prop :=
  ∀ n c, c.ahead = ts ++ after → Reaches context (p.parse (n + 1)) c ts after v

namespace Complete

open Parse

variable {context : Context σ} {t : Token σ} {nl nl' ts us vs after : List (Token σ)}
  {c : Cursor σ}

/-- From its tokens a complete phrase has its value, or no answer at the bound. -/
theorem reaches {p : Phrase σ} {v : p.Value} (h : Complete context p ts after v) (n : Nat)
    (hc : c.ahead = ts ++ after) : Reaches context (p.parse n) c ts after v := by
  cases n with
  | zero =>
    have hzero : p.parse 0 = Parse.exhausted := by cases p <;> with_unfolding_all rfl
    rw [hzero]
    exact .exhausted
  | succ n => exact h n c hc

/-! ### lists of parameters -/

theorem noParameters {opener : σ} (hnl : Newlines nl)
    (hafter : headKind after = some (.symbol .pipe)) :
    Complete context (.parameters opener) nl after [] := by
  intro n c hc
  have hnewline : headKind after ≠ some .newline := by simp [hafter]
  show Reaches context (Grammar.parameters opener (n + 1)) c _ after _
  unfold Grammar.parameters
  rw [← List.append_nil nl]
  exact .skipNewlines hc hnl hnewline fun d _ hd =>
    .peek ((Cursor.kind?_of_ahead hd).trans hafter) (.pure hd)

/-- A parameter that the closing bar follows. -/
theorem lastParameter {opener : σ} {name : String} (hnl : Newlines nl) (ht : t.kind = .var name)
    (hnl' : Newlines nl') (hafter : headKind after = some (.symbol .pipe)) :
    Complete context (.parameters opener) (nl ++ t :: nl') after [⟨name, t.span⟩] := by
  intro n c hc
  simp only [List.append_assoc, List.cons_append] at hc
  have hnewline : headKind (t :: (nl' ++ after)) ≠ some .newline := by simp [ht]
  have hnewline' : headKind after ≠ some .newline := by simp [hafter]
  show Reaches context (Grammar.parameters opener (n + 1)) c _ after _
  unfold Grammar.parameters
  rw [← List.append_nil nl']
  exact .skipNewlines hc hnl hnewline fun d _ hd =>
    .peek (Cursor.kind?_eq hd ht) <|
    .place (Cursor.place_cons _ hd) <| .advance hd fun e _ he =>
    .skipNewlines he hnl' hnewline' fun f _ hf =>
    .peek ((Cursor.kind?_of_ahead hf).trans hafter) (.pure hf)

/-- A parameter and the ones behind its comma. -/
theorem moreParameters {opener : σ} {comma : Token σ} {name : String} {params : List (Ident σ)}
    (hnl : Newlines nl) (ht : t.kind = .var name) (hnl' : Newlines nl')
    (hcomma : comma.kind = .symbol .comma)
    (hrest : Complete context (.parameters opener) ts after params) :
    Complete context (.parameters opener) (nl ++ t :: (nl' ++ comma :: ts)) after
      (⟨name, t.span⟩ :: params) := by
  intro n c hc
  simp only [List.append_assoc, List.cons_append] at hc
  have hnewline : headKind (t :: (nl' ++ comma :: (ts ++ after))) ≠ some .newline := by
    simp [ht]
  have hnewline' : headKind (comma :: (ts ++ after)) ≠ some .newline := by
    simp [hcomma]
  show Reaches context (Grammar.parameters opener (n + 1)) c _ after _
  unfold Grammar.parameters
  exact .skipNewlines hc hnl hnewline fun d _ hd =>
    .peek (Cursor.kind?_eq hd ht) <|
    .place (Cursor.place_cons _ hd) <| .advance hd fun e _ he =>
    .skipNewlines he hnl' hnewline' fun f _ hf =>
    .peek (Cursor.kind?_eq hf hcomma) <|
    .advance hf fun g _ hg => (hrest.reaches n hg).map fun rest => (⟨name, t.span⟩ : Ident σ) :: rest

/-! ### expressions -/

/-- An operand and the operators behind it. -/
theorem expression {floor : Nat} {left value : Expr σ}
    (hleft : Complete context .operand ts (us ++ after) left)
    (hrest : Complete context (.operators floor left) us after value) :
    Complete context (.expression floor) (ts ++ us) after value := by
  intro n c hc
  rw [List.append_assoc] at hc
  show Reaches context (Grammar.expression floor (n + 1)) c _ after _
  unfold Grammar.expression
  exact (hleft.reaches n hc).bind fun d _ hd => hrest.reaches n hd

/-- An operator that binds too weakly is left for the caller. -/
theorem noOperator {floor : Nat} {left : Expr σ}
    (hafter : ∀ op, (headKind after).bind BinaryOp.ofKind? = some op → op.level < floor) :
    Complete context (.operators floor left) [] after left := by
  intro n c hc
  show Reaches context (Grammar.operators floor left (n + 1)) c _ after _
  unfold Grammar.operators
  apply Reaches.peek (Cursor.kind?_of_ahead hc)
  split
  · next op hop =>
    rw [if_pos (hafter op hop)]
    exact .pure hc
  · exact .pure hc

/-- The right operand is read with a higher floor, so that operators of one level group to the
left. -/
theorem operator {floor : Nat} {left right value : Expr σ} {op : BinaryOp}
    (ht : BinaryOp.ofKind? t.kind = some op) (hlevel : floor ≤ op.level) (hnl : Newlines nl)
    (hopens : BeginsWith beginsExpression ts)
    (hright : Complete context (.expression (op.level + 1)) ts (us ++ after) right)
    (hrest : Complete context
      (.operators floor (.binary (Location.merge left.span right.span) op left right))
      us after value) :
    Complete context (.operators floor left) (t :: (nl ++ (ts ++ us))) after value := by
  intro n c hc
  simp only [List.append_assoc, List.cons_append] at hc
  have hop : (some t.kind).bind BinaryOp.ofKind? = some op := ht
  show Reaches context (Grammar.operators floor left (n + 1)) c _ after _
  unfold Grammar.operators
  apply Reaches.peek (Cursor.kind?_cons hc)
  simp only [hop]
  rw [if_neg (Nat.not_lt.2 hlevel)]
  exact .advance hc fun d _ hd =>
    .skipNewlines hd hnl (hopens.not_newline (us ++ after)) fun e _ he =>
    (hright.reaches n he).bind fun f _ hf => hrest.reaches n hf

/-- A sign and its operand. -/
theorem sign {op : UnaryOp} {inner : Expr σ} (ht : UnaryOp.ofKind? t.kind = some op)
    (hinner : Complete context .operand ts after inner) :
    Complete context .operand (t :: ts) after
      (.unary (Location.merge t.span inner.span) op inner) := by
  intro n c hc
  have hop : (some t.kind).bind UnaryOp.ofKind? = some op := ht
  show Reaches context (Grammar.operand (n + 1)) c _ after _
  unfold Grammar.operand
  apply Reaches.place (Cursor.place_cons _ hc)
  apply Reaches.peek (Cursor.kind?_cons hc)
  simp only [hop]
  exact .advance hc fun d _ hd =>
    (hinner.reaches n hd).map fun x : Expr σ => Expr.unary (Location.merge t.span x.span) op x

/-- A primary expression and its suffixes. -/
theorem operand {first value : Expr σ} (hopens : BeginsWith beginsPrimary ts)
    (hfirst : Complete context .primary ts (us ++ after) first)
    (hrest : Complete context (.suffixes first) us after value) :
    Complete context .operand (ts ++ us) after value := by
  intro n c hc
  rw [List.append_assoc] at hc
  obtain ⟨k, hk, hbegins⟩ := (hopens.append (us ++ after)).headKind
  have hop : (some k).bind UnaryOp.ofKind? = none := ofKind?_of_beginsPrimary hbegins
  show Reaches context (Grammar.operand (n + 1)) c _ after _
  unfold Grammar.operand
  apply Reaches.place rfl
  apply Reaches.peek ((Cursor.kind?_of_ahead hc).trans hk)
  simp only [hop]
  exact (hfirst.reaches n hc).bind fun d _ hd => hrest.reaches n hd

/-- A bracket that does not touch the target is left. -/
theorem noSuffix {target : Expr σ} (hdot : headKind after ≠ some (.symbol .dot))
    (hbracket : headKind after = some (.symbol .openBracket) → headTouches after = false) :
    Complete context (.suffixes target) [] after target := by
  intro n c hc
  show Reaches context (Grammar.suffixes target (n + 1)) c _ after _
  unfold Grammar.suffixes
  apply Reaches.peek (Cursor.kind?_of_ahead hc)
  split
  · next hk => exact absurd hk hdot
  · next hk =>
    apply Reaches.touching ((Cursor.touching_of_ahead hc).trans (hbracket hk))
    exact .pure hc
  · exact .pure hc

/-- A method behind a dot, and further suffixes. -/
theorem method {target value : Expr σ} {dot : Token σ} {name : String} {args : List (Expr σ)}
    {lambda : Option (Lambda σ)} (hdot : dot.kind = .symbol .dot) (ht : t.kind = .name name)
    (hargs : Complete context .optionalArguments ts (us ++ (vs ++ after)) args)
    (hlambda : Complete context .optionalLambda us (vs ++ after) lambda)
    (hrest : Complete context (.suffixes (.method (through target.span (dot :: t :: (ts ++ us)))
      target ⟨name, t.span⟩ args lambda)) vs after value) :
    Complete context (.suffixes target) (dot :: t :: (ts ++ (us ++ vs))) after value := by
  intro n c hc
  simp only [List.append_assoc, List.cons_append] at hc
  show Reaches context (Grammar.suffixes target (n + 1)) c _ after _
  unfold Grammar.suffixes
  exact .peek (Cursor.kind?_eq hc hdot) <|
    .advance hc fun d hpast hd => .name hd ht fun e hpast' he =>
    (hargs.reaches n he).bind fun f hpast'' hf => (hlambda.reaches n hf).bind fun g hpast''' hg =>
    have hwhole := hpast.trans (hpast'.trans (hpast''.trans hpast'''))
    .since (hwhole.since (List.cons_ne_nil _ _) _) (hrest.reaches n hg)

/-- Keys in a bracket that touches the target, and further suffixes. -/
theorem access {target value : Expr σ} {opener closer : Token σ} {keys : List (Expr σ)}
    (hopener : opener.kind = .symbol .openBracket) (htouching : opener.touching = true)
    (hkeys : Complete context (.elements .access) ts (closer :: (us ++ after)) keys)
    (hcloser : closer.kind = .symbol .closeBracket) (hne : keys ≠ [])
    (hrest : Complete context
      (.suffixes (.access (Location.merge target.span closer.span) target keys)) us after value) :
    Complete context (.suffixes target) (opener :: (ts ++ closer :: us)) after value := by
  intro n c hc
  simp only [List.append_assoc, List.cons_append] at hc
  have hnonempty : keys.isEmpty = false := by simpa using hne
  have hclose : closer.kind = .symbol Construct.access.closer := hcloser
  show Reaches context (Grammar.suffixes target (n + 1)) c _ after _
  unfold Grammar.suffixes
  apply Reaches.peek (Cursor.kind?_eq hc hopener)
  apply Reaches.touching ((Cursor.touching_of_ahead hc).trans htouching)
  rw [if_pos rfl]
  apply Reaches.place (Cursor.place_cons _ hc)
  apply Reaches.advance hc
  intro d _ hd
  apply (hkeys.reaches n hd).bind
  intro e _ he
  apply Reaches.close he hclose
  intro f _ hf
  rw [hnonempty]
  exact hrest.reaches n hf

/-! ### primaries -/

theorem var {name : String} (ht : t.kind = .var name) :
    Complete context .primary [t] after (.var t.span name) := by
  intro n c hc
  show Reaches context (Grammar.primary (n + 1)) c _ after _
  unfold Grammar.primary
  exact .place (Cursor.place_cons _ hc) <|
    .peek (Cursor.kind?_eq hc ht) <| .advance hc fun d _ hd => .pure hd

theorem reference {name : String} (ht : t.kind = .reference name) :
    Complete context .primary [t] after (.reference t.span name) := by
  intro n c hc
  show Reaches context (Grammar.primary (n + 1)) c _ after _
  unfold Grammar.primary
  exact .place (Cursor.place_cons _ hc) <|
    .peek (Cursor.kind?_eq hc ht) <| .advance hc fun d _ hd => .pure hd

theorem literal {value : Literal} (ht : Literal.ofKind? t.kind = some value) :
    Complete context .primary [t] after (.literal t.span value) := by
  intro n c hc
  have hfound : (some t.kind).bind Literal.ofKind? = some value := ht
  show Reaches context (Grammar.primary (n + 1)) c _ after _
  unfold Grammar.primary
  apply Reaches.place (Cursor.place_cons _ hc)
  apply Reaches.peek (Cursor.kind?_cons hc)
  split
  case h_7 =>
    simp only [hfound]
    exact .advance hc fun d _ hd => .pure hd
  all_goals
    next hk =>
      rw [Option.some.injEq] at hk
      rw [hk] at ht
      cases ht

/-- What begins with a name is a call or a word. -/
theorem name {value : Expr σ} (hopens : BeginsWith isName ts)
    (hname : Complete context .callOrWord ts after value) :
    Complete context .primary ts after value := by
  intro n c hc
  obtain ⟨text, hk⟩ := hopens.name after
  show Reaches context (Grammar.primary (n + 1)) c _ after _
  unfold Grammar.primary
  exact .place rfl <| .peek ((Cursor.kind?_of_ahead hc).trans hk) (hname.reaches n hc)

/-- Elements between brackets. -/
theorem array {opener closer : Token σ} {items : List (Expr σ)}
    (hopener : opener.kind = .symbol .openBracket)
    (hitems : Complete context (.elements .array) ts (closer :: after) items)
    (hcloser : closer.kind = .symbol .closeBracket) :
    Complete context .primary (opener :: (ts ++ [closer])) after
      (.array (Location.merge opener.span closer.span) items) := by
  intro n c hc
  simp only [List.append_assoc, List.cons_append, List.nil_append] at hc
  show Reaches context (Grammar.primary (n + 1)) c _ after _
  unfold Grammar.primary
  exact .place (Cursor.place_cons _ hc) <|
    .peek (Cursor.kind?_eq hc hopener) <| .advance hc fun d _ hd =>
    (hitems.reaches n hd).bind fun e _ he => .close he hcloser fun f _ hf => .pure hf

/-- Behind the brace all line breaks are skipped, as the entries begin with none. -/
theorem hash {opener closer : Token σ} {found : List (Entry σ)}
    (hopener : opener.kind = .symbol .openBrace) (hnl : Newlines nl)
    (hnewline : headKind (ts ++ closer :: after) ≠ some .newline)
    (hfound : Complete context .entries ts (closer :: after) found)
    (hcloser : closer.kind = .symbol .closeBrace) :
    Complete context .primary (opener :: (nl ++ (ts ++ [closer]))) after
      (.hash (Location.merge opener.span closer.span) found) := by
  intro n c hc
  simp only [List.append_assoc, List.cons_append, List.nil_append] at hc
  show Reaches context (Grammar.primary (n + 1)) c _ after _
  unfold Grammar.primary
  exact .place (Cursor.place_cons _ hc) <|
    .peek (Cursor.kind?_eq hc hopener) <| .advance hc fun d _ hd =>
    .skipNewlines hd hnl hnewline fun e _ he => (hfound.reaches n he).bind fun f _ hf =>
    .close hf hcloser fun g _ hg => .pure hg

/-- An expression between parentheses, with line breaks inside. -/
theorem parentheses {opener closer : Token σ} {inner : Expr σ}
    (hopener : opener.kind = .symbol .openParen) (hnl : Newlines nl)
    (hopens : BeginsWith beginsExpression ts)
    (hinner : Complete context (.expression 0) ts (nl' ++ closer :: after) inner)
    (hnl' : Newlines nl') (hcloser : closer.kind = .symbol .closeParen) :
    Complete context .primary (opener :: (nl ++ (ts ++ (nl' ++ [closer])))) after
      (inner.withSpan (Location.merge opener.span closer.span)) := by
  intro n c hc
  simp only [List.append_assoc, List.cons_append, List.nil_append] at hc
  have hnewline : headKind (closer :: after) ≠ some .newline := by simp [hcloser]
  show Reaches context (Grammar.primary (n + 1)) c _ after _
  unfold Grammar.primary
  exact .place (Cursor.place_cons _ hc) <|
    .peek (Cursor.kind?_eq hc hopener) <| .advance hc fun d _ hd =>
    .skipNewlines hd hnl (hopens.not_newline _) fun e _ he =>
    (hinner.reaches n he).bind fun f _ hf => .skipNewlines hf hnl' hnewline fun g _ hg =>
    .peek (Cursor.kind?_eq hg hcloser) <|
    .close hg hcloser fun h _ hh => .pure hh

/-! ### lists -/

/-- Where the closer follows, there is no further element. -/
theorem noElements {construct : Construct} (hnl : Newlines nl)
    (hafter : ∀ k, headKind after = some k → k = .symbol construct.closer) :
    Complete context (.elements construct) nl after [] := by
  intro n c hc
  have hnewline : headKind after ≠ some .newline := fun hk => nomatch hafter _ hk
  show Reaches context (Grammar.elements construct (n + 1)) c _ after _
  unfold Grammar.elements
  rw [← List.append_nil nl]
  apply Reaches.skipNewlines hc hnl hnewline
  intro d _ hd
  apply Reaches.peek (Cursor.kind?_of_ahead hd)
  split
  · exact .pure hd
  · next hk =>
    have hcloser := hafter _ hk
    cases construct <;> cases hcloser
  · next k _ hk =>
    rw [if_pos (hafter k hk)]
    exact .pure hd

omit [Location σ] in
/-- An element that begins where the list goes on. -/
theorem element {construct : Construct} {v : List (Expr σ)} {q : Parse σ (List (Expr σ))}
    (hopens : BeginsWith beginsExpression ts)
    (hq : Reaches context q c us after v) :
    Reaches context (match headKind (ts ++ vs) with
      | none => pure []
      | some (.symbol .comma) => strayComma
      | some kind => if kind = .symbol construct.closer then pure [] else q) c us after v := by
  obtain ⟨k, hk, hbegins⟩ := (hopens.append vs).headKind
  rw [hk]
  split
  · next hk => cases hk
  · next hk =>
    cases hk
    cases hbegins
  · next k' _ hk =>
    cases hk
    have hcloser : k ≠ .symbol construct.closer := by
      rintro rfl
      cases construct <;> cases hbegins
    rw [if_neg hcloser]
    exact hq

/-- Without a comma behind it, an element is the last. -/
theorem lastElement {construct : Construct} {item : Expr σ} (hnl : Newlines nl)
    (hopens : BeginsWith beginsExpression ts)
    (hitem : Complete context (.expression 0) ts (nl' ++ after) item) (hnl' : Newlines nl')
    (hnewline : headKind after ≠ some .newline) (hcomma : headKind after ≠ some (.symbol .comma)) :
    Complete context (.elements construct) (nl ++ (ts ++ nl')) after [item] := by
  intro n c hc
  simp only [List.append_assoc] at hc
  show Reaches context (Grammar.elements construct (n + 1)) c _ after _
  unfold Grammar.elements
  apply Reaches.skipNewlines hc hnl (hopens.not_newline _)
  intro d _ hd
  apply Reaches.peek (Cursor.kind?_of_ahead hd)
  apply element hopens
  rw [← List.append_nil nl']
  apply (hitem.reaches n hd).bind
  intro e _ he
  apply Reaches.skipNewlines he hnl' hnewline
  intro f _ hf
  apply Reaches.peek (Cursor.kind?_of_ahead hf)
  split
  · next hk => exact absurd hk hcomma
  · exact .pure hf

/-- An element and the ones behind its comma. -/
theorem moreElements {construct : Construct} {item : Expr σ} {items : List (Expr σ)}
    {comma : Token σ} (hnl : Newlines nl) (hopens : BeginsWith beginsExpression ts)
    (hitem : Complete context (.expression 0) ts (nl' ++ comma :: (us ++ after)) item)
    (hnl' : Newlines nl') (hcomma : comma.kind = .symbol .comma)
    (hrest : Complete context (.elements construct) us after items) :
    Complete context (.elements construct) (nl ++ (ts ++ (nl' ++ comma :: us))) after
      (item :: items) := by
  intro n c hc
  simp only [List.append_assoc, List.cons_append] at hc
  have hnewline : headKind (comma :: (us ++ after)) ≠ some .newline := by
    simp [hcomma]
  show Reaches context (Grammar.elements construct (n + 1)) c _ after _
  unfold Grammar.elements
  apply Reaches.skipNewlines hc hnl (hopens.not_newline _)
  intro d _ hd
  apply Reaches.peek (Cursor.kind?_of_ahead hd)
  apply element hopens
  exact (hitem.reaches n hd).bind fun e _ he => .skipNewlines he hnl' hnewline fun f _ hf =>
    .peek (Cursor.kind?_eq hf hcomma) <| .advance hf fun g _ hg =>
    (hrest.reaches n hg).map fun rest => item :: rest

theorem noEntries (hafter : ∀ k, headKind after = some k → k = .symbol .closeBrace) :
    Complete context .entries [] after [] := by
  intro n c hc
  show Reaches context (Grammar.entries (n + 1)) c _ after _
  unfold Grammar.entries
  apply Reaches.peek (Cursor.kind?_of_ahead hc)
  split
  · exact .pure hc
  · exact .pure hc
  · next hk => cases hafter _ hk
  · next hbrace _ hk =>
    obtain rfl := hafter _ hk
    exact absurd rfl hbrace

omit [Location σ] in
/-- An entry that begins where the hash goes on. -/
theorem entry {v : List (Entry σ)} {q : Parse σ (List (Entry σ))}
    (hopens : BeginsWith beginsExpression ts) (hq : Reaches context q c us after v) :
    Reaches context (match headKind (ts ++ vs) with
      | none => pure []
      | some (.symbol .closeBrace) => pure []
      | some (.symbol .comma) => strayComma
      | some _ => q) c us after v := by
  obtain ⟨k, hk, hbegins⟩ := (hopens.append vs).headKind
  rw [hk]
  split
  · next hk => cases hk
  · next hk =>
    cases hk
    cases hbegins
  · next hk =>
    cases hk
    cases hbegins
  · exact hq

/-- An entry that no comma follows. -/
theorem lastEntry {key value : Expr σ} {arrow : Token σ} {nl₁ nl₂ nl₃ : List (Token σ)}
    (hkopens : BeginsWith beginsExpression ts)
    (hkey : Complete context (.expression 0) ts (nl₁ ++ arrow :: (nl₂ ++ (us ++ (nl₃ ++ after))))
      key)
    (hnl₁ : Newlines nl₁) (harrow : arrow.kind = .symbol .arrow) (hnl₂ : Newlines nl₂)
    (hvopens : BeginsWith beginsExpression us)
    (hvalue : Complete context (.expression 0) us (nl₃ ++ after) value) (hnl₃ : Newlines nl₃)
    (hnewline : headKind after ≠ some .newline) (hcomma : headKind after ≠ some (.symbol .comma)) :
    Complete context .entries (ts ++ (nl₁ ++ arrow :: (nl₂ ++ (us ++ nl₃)))) after
      [⟨key, value⟩] := by
  intro n c hc
  simp only [List.append_assoc, List.cons_append] at hc
  have hnewline₁ : headKind (arrow :: (nl₂ ++ (us ++ (nl₃ ++ after)))) ≠ some .newline := by
    simp [harrow]
  show Reaches context (Grammar.entries (n + 1)) c _ after _
  unfold Grammar.entries
  apply Reaches.peek (Cursor.kind?_of_ahead hc)
  apply entry hkopens
  rw [← List.append_nil nl₃]
  apply (hkey.reaches n hc).bind
  intro d _ hd
  apply Reaches.skipNewlines hd hnl₁ hnewline₁
  intro e _ he
  apply Reaches.symbol he harrow
  intro f _ hf
  apply Reaches.skipNewlines hf hnl₂ (hvopens.not_newline _)
  intro g _ hg
  apply (hvalue.reaches n hg).bind
  intro h _ hh
  apply Reaches.skipNewlines hh hnl₃ hnewline
  intro i _ hi
  apply Reaches.peek (Cursor.kind?_of_ahead hi)
  split
  · next hk => exact absurd hk hcomma
  · exact .pure hi

/-- An entry and the ones behind its comma. -/
theorem moreEntries {key value : Expr σ} {found : List (Entry σ)} {arrow comma : Token σ}
    {nl₁ nl₂ nl₃ nl₄ : List (Token σ)} (hkopens : BeginsWith beginsExpression ts)
    (hkey : Complete context (.expression 0) ts
      (nl₁ ++ arrow :: (nl₂ ++ (us ++ (nl₃ ++ comma :: (nl₄ ++ (vs ++ after)))))) key)
    (hnl₁ : Newlines nl₁) (harrow : arrow.kind = .symbol .arrow) (hnl₂ : Newlines nl₂)
    (hvopens : BeginsWith beginsExpression us)
    (hvalue : Complete context (.expression 0) us (nl₃ ++ comma :: (nl₄ ++ (vs ++ after))) value)
    (hnl₃ : Newlines nl₃) (hcomma : comma.kind = .symbol .comma) (hnl₄ : Newlines nl₄)
    (hnewline : headKind (vs ++ after) ≠ some .newline)
    (hrest : Complete context .entries vs after found) :
    Complete context .entries
      (ts ++ (nl₁ ++ arrow :: (nl₂ ++ (us ++ (nl₃ ++ comma :: (nl₄ ++ vs)))))) after
      (⟨key, value⟩ :: found) := by
  intro n c hc
  simp only [List.append_assoc, List.cons_append] at hc
  have hnewline₁ : headKind (arrow :: (nl₂ ++ (us ++ (nl₃ ++ comma :: (nl₄ ++ (vs ++ after))))))
      ≠ some .newline := by
    simp [harrow]
  have hnewline₃ : headKind (comma :: (nl₄ ++ (vs ++ after))) ≠ some .newline := by
    simp [hcomma]
  show Reaches context (Grammar.entries (n + 1)) c _ after _
  unfold Grammar.entries
  apply Reaches.peek (Cursor.kind?_of_ahead hc)
  apply entry hkopens
  exact (hkey.reaches n hc).bind fun d _ hd => .skipNewlines hd hnl₁ hnewline₁ fun e _ he =>
    .symbol he harrow fun f _ hf => .skipNewlines hf hnl₂ (hvopens.not_newline _) fun g _ hg =>
    (hvalue.reaches n hg).bind fun h _ hh => .skipNewlines hh hnl₃ hnewline₃ fun i _ hi =>
    .peek (Cursor.kind?_eq hi hcomma) <| .advance hi fun j _ hj =>
    .skipNewlines hj hnl₄ hnewline fun k _ hk =>
    (hrest.reaches n hk).map fun rest => (⟨key, value⟩ : Entry σ) :: rest

/-- Elements between parentheses. -/
theorem arguments {opener closer : Token σ} {args : List (Expr σ)}
    (hopener : opener.kind = .symbol .openParen)
    (hargs : Complete context (.elements .argumentList) ts (closer :: after) args)
    (hcloser : closer.kind = .symbol .closeParen) :
    Complete context .arguments (opener :: (ts ++ [closer])) after args := by
  intro n c hc
  simp only [List.append_assoc, List.cons_append, List.nil_append] at hc
  show Reaches context (Grammar.arguments (n + 1)) c _ after _
  rw [Grammar.arguments_succ]
  exact .symbol hc hopener fun d _ hd => (hargs.reaches n hd).bind fun e _ he =>
    .closeAs he hcloser fun f _ hf => .pure hf

theorem noArguments (hafter : headKind after ≠ some (.symbol .openParen)) :
    Complete context .optionalArguments [] after [] := by
  intro n c hc
  show Reaches context (Grammar.optionalArguments (n + 1)) c _ after _
  unfold Grammar.optionalArguments
  apply Reaches.peek (Cursor.kind?_of_ahead hc)
  split
  · next hk => exact absurd hk hafter
  · exact .pure hc

theorem someArguments {args : List (Expr σ)} (hopens : BeginsWith isParen ts)
    (hargs : Complete context .arguments ts after args) :
    Complete context .optionalArguments ts after args := by
  intro n c hc
  have hk := hopens.paren after
  show Reaches context (Grammar.optionalArguments (n + 1)) c _ after _
  unfold Grammar.optionalArguments
  exact .peek ((Cursor.kind?_of_ahead hc).trans hk) (hargs.reaches n hc)

/-- An argument and the ones behind commas. -/
theorem bareArguments {first : Expr σ} {rest : List (Expr σ)}
    (hfirst : Complete context (.expression 0) ts (us ++ after) first)
    (hrest : Complete context .moreBareArguments us after rest) :
    Complete context .bareArguments (ts ++ us) after (first :: rest) := by
  intro n c hc
  rw [List.append_assoc] at hc
  show Reaches context (Grammar.bareArguments (n + 1)) c _ after _
  unfold Grammar.bareArguments
  exact (hfirst.reaches n hc).bind fun d _ hd => (hrest.reaches n hd).map fun rest => first :: rest

theorem noMoreArguments (hafter : headKind after ≠ some (.symbol .comma)) :
    Complete context .moreBareArguments [] after [] := by
  intro n c hc
  show Reaches context (Grammar.moreBareArguments (n + 1)) c _ after _
  unfold Grammar.moreBareArguments
  apply Reaches.peek (Cursor.kind?_of_ahead hc)
  split
  · next hk => exact absurd hk hafter
  · exact .pure hc

theorem moreArguments {comma : Token σ} {first : Expr σ} {rest : List (Expr σ)}
    (hcomma : comma.kind = .symbol .comma) (hnl : Newlines nl)
    (hopens : BeginsWith beginsExpression ts)
    (hfirst : Complete context (.expression 0) ts (us ++ after) first)
    (hrest : Complete context .moreBareArguments us after rest) :
    Complete context .moreBareArguments (comma :: (nl ++ (ts ++ us))) after (first :: rest) := by
  intro n c hc
  simp only [List.append_assoc, List.cons_append] at hc
  obtain ⟨k, hk, hbegins⟩ := (hopens.append (us ++ after)).headKind
  show Reaches context (Grammar.moreBareArguments (n + 1)) c _ after _
  unfold Grammar.moreBareArguments
  apply Reaches.peek (Cursor.kind?_eq hc hcomma)
  apply Reaches.place rfl
  apply Reaches.advance hc
  intro d _ hd
  apply Reaches.skipNewlines hd hnl (hopens.not_newline _)
  intro e _ he
  apply Reaches.peek ((Cursor.kind?_of_ahead he).trans hk)
  split
  case h_5 =>
    exact (hfirst.reaches n he).bind fun f _ hf =>
      (hrest.reaches n hf).map fun rest => first :: rest
  case h_2 hk => cases hk
  all_goals
    next hk =>
      rw [Option.some.injEq] at hk
      rw [hk] at hbegins
      cases hbegins

/-! ### calls -/

/-- A name that no parenthesis follows. -/
theorem word {name : String} (ht : t.kind = .name name)
    (hafter : headKind after ≠ some (.symbol .openParen)) :
    Complete context .callOrWord [t] after (.word t.span name) := by
  intro n c hc
  show Reaches context (Grammar.callOrWord (n + 1)) c _ after _
  unfold Grammar.callOrWord
  apply Reaches.name hc ht
  intro d _ hd
  apply Reaches.peek (Cursor.kind?_of_ahead hd)
  split
  · next hk => exact absurd hk hafter
  · exact .pure hd

/-- A name that a parenthesis follows. -/
theorem call {name : String} {value : Expr σ} (ht : t.kind = .name name)
    (hopens : BeginsWith isParen ts)
    (hcall : Complete context (.callOf ⟨name, t.span⟩) ts after value) :
    Complete context .callOrWord (t :: ts) after value := by
  intro n c hc
  have hk := hopens.paren after
  show Reaches context (Grammar.callOrWord (n + 1)) c _ after _
  unfold Grammar.callOrWord
  exact .name hc ht fun d _ hd =>
    .peek ((Cursor.kind?_of_ahead hd).trans hk) (hcall.reaches n hd)

/-- Arguments and a lambda. -/
theorem callOf {callee : Ident σ} {args : List (Expr σ)} {lambda : Option (Lambda σ)}
    (hopens : BeginsWith isParen ts)
    (hargs : Complete context .arguments ts (us ++ after) args)
    (hlambda : Complete context .optionalLambda us after lambda) :
    Complete context (.callOf callee) (ts ++ us) after
      (.call (through callee.span (ts ++ us)) callee args lambda) := by
  intro n c hc
  rw [List.append_assoc] at hc
  have hne := List.append_ne_nil_of_left_ne_nil hopens.ne_nil us
  show Reaches context (Grammar.callOf callee (n + 1)) c _ after _
  unfold Grammar.callOf
  exact (hargs.reaches n hc).bind fun d hpast hd => (hlambda.reaches n hd).last fun e hpast' he =>
    .since ((hpast.trans hpast').since hne _) (.pure he)

theorem noLambda (hpipe : headKind after ≠ some (.symbol .pipe))
    (hpipes : headKind after ≠ some (.symbol .pipePipe)) :
    Complete context .optionalLambda [] after none := by
  intro n c hc
  show Reaches context (Grammar.optionalLambda (n + 1)) c _ after _
  unfold Grammar.optionalLambda
  apply Reaches.peek (Cursor.kind?_of_ahead hc)
  split
  · next hk => exact absurd hk hpipe
  · next hk => exact absurd hk hpipes
  · exact .pure hc

theorem someLambda {lambda : Lambda σ} (hopens : BeginsWith isBar ts)
    (hlambda : Complete context .lambda ts after lambda) :
    Complete context .optionalLambda ts after (some lambda) := by
  intro n c hc
  obtain hk | hk := hopens.bar after
  all_goals
    show Reaches context (Grammar.optionalLambda (n + 1)) c _ after _
    unfold Grammar.optionalLambda
    exact .peek ((Cursor.kind?_of_ahead hc).trans hk) ((hlambda.reaches n hc).map some)

/-- Two bars and a body. -/
theorem lambdaNoList {lambda : Lambda σ} (ht : t.kind = .symbol .pipePipe)
    (hbody : Complete context (.lambdaBody t.span []) ts after lambda) :
    Complete context .lambda (t :: ts) after lambda := by
  intro n c hc
  show Reaches context (Grammar.lambda (n + 1)) c _ after _
  unfold Grammar.lambda
  exact .place (Cursor.place_cons _ hc) <|
    .peek (Cursor.kind?_eq hc ht) <|
    .advance hc fun d _ hd => hbody.reaches n hd

/-- Parameters between bars and a body. -/
theorem lambda {opener closer : Token σ} {params : List (Ident σ)} {lambda : Lambda σ}
    (hopener : opener.kind = .symbol .pipe)
    (hparams : Complete context (.parameters opener.span) ts (closer :: (us ++ after)) params)
    (hcloser : closer.kind = .symbol .pipe)
    (hbody : Complete context (.lambdaBody opener.span params) us after lambda) :
    Complete context .lambda (opener :: (ts ++ closer :: us)) after lambda := by
  intro n c hc
  simp only [List.append_assoc, List.cons_append] at hc
  show Reaches context (Grammar.lambda (n + 1)) c _ after _
  unfold Grammar.lambda
  exact .place (Cursor.place_cons _ hc) <|
    .peek (Cursor.kind?_eq hc hopener) <| .advance hc fun d _ hd =>
    (hparams.reaches n hd).bind fun e _ he => .symbol he hcloser fun f _ hf => hbody.reaches n hf

theorem lambdaBody {opener : σ} {params : List (Ident σ)} {body : Block σ} (hnl : Newlines nl)
    (hopens : BeginsWith isBrace ts) (hbody : Complete context (.block .lambdaBody) ts after body) :
    Complete context (.lambdaBody opener params) (nl ++ ts) after
      ⟨through opener ts, params, body⟩ := by
  intro n c hc
  rw [List.append_assoc] at hc
  have hnewline := hopens.head_ne (k := .newline) rfl after
  show Reaches context (Grammar.lambdaBody opener params (n + 1)) c _ after _
  unfold Grammar.lambdaBody
  exact .skipNewlines hc hnl hnewline fun d _ hd => (hbody.reaches n hd).last fun e hpast he =>
    .since (hpast.since hopens.ne_nil _) (.pure he)

/-! ### statements -/

/-- Statements between braces. -/
theorem block {construct : Construct} {opener closer : Token σ} {stmts : List (Stmt σ)}
    (hopener : opener.kind = .symbol .openBrace)
    (hstmts : Complete context .statements ts (closer :: after) stmts)
    (hcloser : closer.kind = .symbol construct.closer) :
    Complete context (.block construct) (opener :: (ts ++ [closer])) after
      ⟨Location.merge opener.span closer.span, stmts⟩ := by
  intro n c hc
  simp only [List.append_assoc, List.cons_append, List.nil_append] at hc
  show Reaches context (Grammar.block construct (n + 1)) c _ after _
  unfold Grammar.block
  exact .symbol hc hopener fun d _ hd => (hstmts.reaches n hd).bind fun e _ he =>
    .close he hcloser fun f _ hf => .pure hf

/-- Separators before the closer, or before the end. -/
theorem noStatements {seps : List (Token σ)} (hseps : Separators seps)
    (hafter : ∀ k, headKind after = some k → k = .symbol .closeBrace) :
    Complete context .statements seps after [] := by
  intro n c hc
  have hstop : ∀ k, headKind after = some k → k ≠ .newline ∧ k ≠ .symbol .semicolon := by
    intro k hk
    simp [hafter k hk]
  show Reaches context (Grammar.statements (n + 1)) c _ after _
  unfold Grammar.statements
  rw [← List.append_nil seps]
  apply Reaches.skipSeparators hc hseps hstop
  intro d _ hd
  apply Reaches.peek (Cursor.kind?_of_ahead hd)
  split
  · exact .pure hd
  · exact .pure hd
  · next hbrace hk =>
    obtain rfl := hafter _ hk
    exact absurd rfl hbrace

/-- A statement and the ones behind it. -/
theorem moreStatements {first : Stmt σ} {rest : List (Stmt σ)} {seps : List (Token σ)}
    (hseps : Separators seps) (hopens : BeginsWith beginsStatement ts)
    (hfirst : Complete context .statement ts (us ++ after) first)
    (hcomma : headKind (us ++ after) ≠ some (.symbol .comma))
    (hrest : Complete context .statements us after rest) :
    Complete context .statements (seps ++ (ts ++ us)) after (first :: rest) := by
  intro n c hc
  simp only [List.append_assoc] at hc
  obtain ⟨k, hk, hbegins⟩ := (hopens.append (us ++ after)).headKind
  have hstop : ∀ k', headKind (ts ++ (us ++ after)) = some k' →
      k' ≠ .newline ∧ k' ≠ .symbol .semicolon := by
    intro k' hk'
    rw [hk, Option.some.injEq] at hk'
    constructor <;> rintro rfl <;> rw [hk'] at hbegins <;> cases hbegins
  show Reaches context (Grammar.statements (n + 1)) c _ after _
  unfold Grammar.statements
  apply Reaches.skipSeparators hc hseps hstop
  intro d _ hd
  apply Reaches.peek ((Cursor.kind?_of_ahead hd).trans hk)
  split
  · next hk => cases hk
  · next hk =>
    cases hk
    cases hbegins
  · apply (hfirst.reaches n hd).bind
    intro e _ he
    apply Reaches.peek (Cursor.kind?_of_ahead he)
    split
    · next hk => exact absurd hk hcomma
    · exact (hrest.reaches n he).map fun rest => first :: rest

/-- A conditional, told by its first word. -/
theorem branching {sense : Sense} {stmt : Stmt σ}
    (ht : t.kind = .keyword .ifWord ∧ sense = .ifTrue ∨
      t.kind = .keyword .unlessWord ∧ sense = .unlessTrue)
    (hstmt : Complete context (.conditional sense) (t :: ts) after stmt) :
    Complete context .statement (t :: ts) after stmt := by
  intro n c hc
  show Reaches context (Grammar.statement (n + 1)) c _ after _
  unfold Grammar.statement
  obtain ⟨ht, rfl⟩ | ⟨ht, rfl⟩ := ht
  · exact .peek (Cursor.kind?_eq hc ht) (hstmt.reaches n hc)
  · exact .peek (Cursor.kind?_eq hc ht) (hstmt.reaches n hc)

/-- A call that is a whole statement. -/
theorem invocation {stmt : Stmt σ} (hopens : BeginsWith isName ts)
    (hcallable : Complete context .callable ts after (.statement stmt)) :
    Complete context .statement ts after stmt := by
  intro n c hc
  obtain ⟨name, hk⟩ := hopens.name after
  show Reaches context (Grammar.statement (n + 1)) c _ after _
  unfold Grammar.statement
  exact .peek ((Cursor.kind?_of_ahead hc).trans hk) <|
    (hcallable.reaches n hc).last fun d _ hd => .pure hd

/-- A value that begins with a name and may be assigned to. -/
theorem callableValue {expr : Expr σ} {stmt : Stmt σ} (hopens : BeginsWith isName ts)
    (hcallable : Complete context .callable ts (us ++ after) (.value expr))
    (hstmt : Complete context (.valueStatement expr) us after stmt) :
    Complete context .statement (ts ++ us) after stmt := by
  intro n c hc
  rw [List.append_assoc] at hc
  obtain ⟨name, hk⟩ := hopens.name (us ++ after)
  show Reaches context (Grammar.statement (n + 1)) c _ after _
  unfold Grammar.statement
  exact .peek ((Cursor.kind?_of_ahead hc).trans hk) <|
    (hcallable.reaches n hc).bind fun d _ hd => hstmt.reaches n hd

/-- A value that begins with no name and may be assigned to. -/
theorem value {expr : Expr σ} {stmt : Stmt σ} (hname : ∀ name, headKind ts ≠ some (.name name))
    (hopens : BeginsWith beginsExpression ts)
    (hexpr : Complete context (.expression 0) ts (us ++ after) expr)
    (hstmt : Complete context (.valueStatement expr) us after stmt) :
    Complete context .statement (ts ++ us) after stmt := by
  intro n c hc
  rw [List.append_assoc] at hc
  obtain ⟨t, vs, rfl, hbegins⟩ := hopens
  show Reaches context (Grammar.statement (n + 1)) c _ after _
  unfold Grammar.statement
  apply Reaches.peek (Cursor.kind?_cons hc)
  split
  case h_5 => exact (hexpr.reaches n hc).bind fun d _ hd => hstmt.reaches n hd
  case h_4 name hk => exact absurd hk (hname name)
  all_goals
    next hk =>
      rw [Option.some.injEq] at hk
      rw [hk] at hbegins
      cases hbegins

/-- A target, the sign and a value. -/
theorem assignment {target value : Expr σ} (ht : t.kind = .symbol .assign)
    (htarget : target.isAssignable = true) (hnl : Newlines nl)
    (hopens : BeginsWith beginsExpression ts)
    (hvalue : Complete context (.expression 0) ts after value) :
    Complete context (.valueStatement target) (t :: (nl ++ ts)) after
      (.assign (Location.merge target.span value.span) target value) := by
  intro n c hc
  simp only [List.append_assoc, List.cons_append] at hc
  show Reaches context (Grammar.valueStatement target (n + 1)) c _ after _
  unfold Grammar.valueStatement
  apply Reaches.peek (Cursor.kind?_eq hc ht)
  rw [if_pos htarget]
  exact .advance hc fun d _ hd => .skipNewlines hd hnl (hopens.not_newline after) fun e _ he =>
    (hvalue.reaches n he).map fun x : Expr σ =>
      Stmt.assign (Location.merge target.span x.span) target x

theorem noAssignment {value : Expr σ} (hafter : headKind after ≠ some (.symbol .assign)) :
    Complete context (.valueStatement value) [] after (.expr value.span value) := by
  intro n c hc
  show Reaches context (Grammar.valueStatement value (n + 1)) c _ after _
  unfold Grammar.valueStatement
  apply Reaches.peek (Cursor.kind?_of_ahead hc)
  split
  · next hk => exact absurd hk hafter
  · exact .pure hc

/-- A condition, its branch and the alternative. -/
theorem conditional {sense : Sense} {condition : Expr σ} {thenBranch : Block σ}
    {elseBranch : Option (Block σ)} (hopens : BeginsWith beginsExpression ts)
    (hcondition : Complete context (.expression 0) ts (us ++ (vs ++ after)) condition)
    (hthen : Complete context (.block (Grammar.branchConstruct sense)) us (vs ++ after) thenBranch)
    (helse : Complete context (.alternative sense) vs after elseBranch) :
    Complete context (.conditional sense) (t :: (ts ++ (us ++ vs))) after
      (.conditional (through t.span (ts ++ (us ++ vs))) sense condition thenBranch
        elseBranch) := by
  intro n c hc
  simp only [List.append_assoc, List.cons_append] at hc
  have hne := List.append_ne_nil_of_left_ne_nil hopens.ne_nil (us ++ vs)
  show Reaches context (Grammar.conditional sense (n + 1)) c _ after _
  unfold Grammar.conditional
  exact .place (Cursor.place_cons _ hc) <| .advance hc fun d _ hd =>
    (hcondition.reaches n hd).bind fun e hpast he =>
    (hthen.reaches n he).bind fun f hpast' hf => (helse.reaches n hf).last fun g hpast'' hg =>
    .since ((hpast.trans (hpast'.trans hpast'')).since hne _) (.pure hg)

/-- Line breaks are only looked past, so that they are left for the next statement. -/
theorem noAlternative {sense : Sense}
    (helsif : sense = .ifTrue → headKindPastNewlines after ≠ some (.keyword .elsifWord))
    (helse : headKindPastNewlines after ≠ some (.keyword .elseWord)) :
    Complete context (.alternative sense) [] after none := by
  intro n c hc
  show Reaches context (Grammar.alternative sense (n + 1)) c _ after _
  unfold Grammar.alternative
  apply Reaches.peekPastNewlines (congrArg headKindPastNewlines hc)
  split
  · next hk => exact absurd hk (helsif rfl)
  · next hk => exact absurd hk helse
  · exact .pure hc

/-- An `elsif`, which is a block with one conditional in it. -/
theorem elsifAlternative {nested : Stmt σ} (hnl : Newlines nl) (ht : t.kind = .keyword .elsifWord)
    (hnested : Complete context (.conditional .ifTrue) (t :: ts) after nested) :
    Complete context (.alternative .ifTrue) (nl ++ t :: ts) after
      (some ⟨nested.span, [nested]⟩) := by
  intro n c hc
  simp only [List.append_assoc, List.cons_append] at hc
  have hnewline : headKind (t :: (ts ++ after)) ≠ some .newline := by simp [ht]
  have hk : headKindPastNewlines c.ahead = some (.keyword .elsifWord) := by
    rw [hc, headKindPastNewlines_append hnl hnewline, headKind_cons, ht]
  show Reaches context (Grammar.alternative .ifTrue (n + 1)) c _ after _
  unfold Grammar.alternative
  exact .peekPastNewlines hk <| .skipNewlines hc hnl hnewline fun d _ hd =>
    (hnested.reaches n hd).map fun x : Stmt σ => some (⟨x.span, [x]⟩ : Block σ)

/-- An `else` with its block. -/
theorem elseAlternative {sense : Sense} {body : Block σ} (hnl : Newlines nl)
    (ht : t.kind = .keyword .elseWord)
    (hbody : Complete context (.block .elseBody) ts after body) :
    Complete context (.alternative sense) (nl ++ t :: ts) after (some body) := by
  intro n c hc
  simp only [List.append_assoc, List.cons_append] at hc
  have hnewline : headKind (t :: (ts ++ after)) ≠ some .newline := by simp [ht]
  have hk : headKindPastNewlines c.ahead = some (.keyword .elseWord) := by
    rw [hc, headKindPastNewlines_append hnl hnewline, headKind_cons, ht]
  show Reaches context (Grammar.alternative sense (n + 1)) c _ after _
  unfold Grammar.alternative
  cases sense <;> exact .peekPastNewlines hk <| .skipNewlines hc hnl hnewline fun d _ hd =>
    .advance hd fun e _ he => (hbody.reaches n he).map some

/-! ### names in statement position -/

/-- A call in parentheses that is not continued. -/
theorem wholeCall {name : String} {call : Expr σ} {span : σ} {callee : Ident σ}
    {args : List (Expr σ)} {lambda : Option (Lambda σ)} (ht : t.kind = .name name)
    (hopens : BeginsWith isParen ts)
    (hcall : Complete context (.callOf ⟨name, t.span⟩) ts (us ++ after) call)
    (hrest : Complete context (.continued call) us after (.call span callee args lambda))
    (hafter : headKind after ≠ some (.symbol .assign)) :
    Complete context .callable (t :: (ts ++ us)) after
      (.statement (.invoke span callee args lambda)) := by
  intro n c hc
  simp only [List.append_assoc, List.cons_append] at hc
  have hk := hopens.paren (us ++ after)
  show Reaches context (Grammar.callable (n + 1)) c _ after _
  unfold Grammar.callable
  apply Reaches.name hc ht
  intro d _ hd
  apply Reaches.peek ((Cursor.kind?_of_ahead hd).trans hk)
  apply (hcall.reaches n hd).bind
  intro e _ he
  apply (hrest.reaches n he).last
  intro f _ hf
  apply Reaches.peek (Cursor.kind?_of_ahead hf)
  split
  · next hk => exact absurd hk hafter
  · next heq _ =>
    cases heq
    exact .pure hf
  · next hwhole _ => exact absurd rfl (hwhole _ _ _ _)

/-- A call that goes on is no statement by itself. -/
theorem callValue {name : String} {call whole : Expr σ} (ht : t.kind = .name name)
    (hopens : BeginsWith isParen ts)
    (hcall : Complete context (.callOf ⟨name, t.span⟩) ts (us ++ after) call)
    (hrest : Complete context (.continued call) us after whole)
    (hwhole : (∃ span callee args lambda, whole = .call span callee args lambda) →
      headKind after = some (.symbol .assign)) :
    Complete context .callable (t :: (ts ++ us)) after (.value whole) := by
  intro n c hc
  simp only [List.append_assoc, List.cons_append] at hc
  have hk := hopens.paren (us ++ after)
  show Reaches context (Grammar.callable (n + 1)) c _ after _
  unfold Grammar.callable
  apply Reaches.name hc ht
  intro d _ hd
  apply Reaches.peek ((Cursor.kind?_of_ahead hd).trans hk)
  apply (hcall.reaches n hd).bind
  intro e _ he
  apply (hrest.reaches n he).last
  intro f _ hf
  apply Reaches.peek (Cursor.kind?_of_ahead hf)
  split
  · exact .pure hf
  · next hassign => exact absurd (hwhole ⟨_, _, _, _, rfl⟩) hassign
  · exact .pure hf

/-- The first argument tells that the name is called. -/
theorem bareCall {name : String} {args : List (Expr σ)} (ht : t.kind = .name name)
    (hbegins : Grammar.beginsArgument (headKind (ts ++ after)) (headTouches (ts ++ after)) = true)
    (hopens : BeginsWith beginsExpression ts)
    (hargs : Complete context .bareArguments ts after args)
    (hcount : args.length ≤ 1 ∨ name ∈ context.calls) :
    Complete context .callable (t :: ts) after
      (.statement (.invoke (through t.span ts) ⟨name, t.span⟩ args none)) := by
  intro n c hc
  rw [List.cons_append] at hc
  have htakes : (args.length ≤ 1 || decide (name ∈ context.calls)) = true := by simpa using hcount
  show Reaches context (Grammar.callable (n + 1)) c _ after _
  unfold Grammar.callable
  apply Reaches.name hc ht
  intro d _ hd
  apply Reaches.peek (Cursor.kind?_of_ahead hd)
  split
  · next hk =>
    rw [hk] at hbegins
    cases hbegins
  · apply Reaches.touching (Cursor.touching_of_ahead hd)
    rw [if_pos hbegins]
    apply (hargs.reaches n hd).last
    intro e hpast he
    apply Reaches.since (hpast.since hopens.ne_nil _)
    apply Reaches.takesArguments rfl
    rw [if_pos htakes]
    exact .pure he

/-- A name without a parenthesis or an argument behind it is a word. -/
theorem wordValue {name : String} {whole : Expr σ} (ht : t.kind = .name name)
    (hparen : headKind (ts ++ after) ≠ some (.symbol .openParen))
    (hbegins : Grammar.beginsArgument (headKind (ts ++ after)) (headTouches (ts ++ after)) = false)
    (hrest : Complete context (.continued (.word t.span name)) ts after whole) :
    Complete context .callable (t :: ts) after (.value whole) := by
  intro n c hc
  rw [List.cons_append] at hc
  show Reaches context (Grammar.callable (n + 1)) c _ after _
  unfold Grammar.callable
  apply Reaches.name hc ht
  intro d _ hd
  apply Reaches.peek (Cursor.kind?_of_ahead hd)
  split
  · next hk => exact absurd hk hparen
  · apply Reaches.touching (Cursor.touching_of_ahead hd)
    rw [hbegins]
    exact (hrest.reaches n hd).map Grammar.Callable.value

/-- Suffixes and operators behind what has been read. -/
theorem continued {first left value : Expr σ}
    (hleft : Complete context (.suffixes first) ts (us ++ after) left)
    (hrest : Complete context (.operators 0 left) us after value) :
    Complete context (.continued first) (ts ++ us) after value := by
  intro n c hc
  rw [List.append_assoc] at hc
  show Reaches context (Grammar.continued first (n + 1)) c _ after _
  unfold Grammar.continued
  exact (hleft.reaches n hc).bind fun d _ hd => hrest.reaches n hd

/-! ### source units -/

theorem noProgram (hstmts : Complete context .statements ts [] []) :
    Complete context .program ts [] ⟨⟨(Cursor.start ts).place context.finish, []⟩⟩ := by
  intro n c hc
  show Reaches context (Grammar.program (n + 1)) c _ [] _
  unfold Grammar.program
  exact .place (Cursor.place_start _ hc) <| (hstmts.reaches n hc).last fun d _ hd =>
    .peek (Cursor.kind?_of_ahead hd) (.pure hd)

/-- Statements up to the end. -/
theorem program {stmts : List (Stmt σ)} (hstmts : Complete context .statements ts [] stmts)
    (hne : stmts ≠ []) (hts : ts ≠ []) :
    Complete context .program ts []
      ⟨⟨through ((Cursor.start ts).place context.finish) ts, stmts⟩⟩ := by
  intro n c hc
  have hnonempty : ¬ stmts.isEmpty = true := by simpa using hne
  show Reaches context (Grammar.program (n + 1)) c _ [] _
  unfold Grammar.program
  apply Reaches.place (Cursor.place_start _ hc)
  apply (hstmts.reaches n hc).last
  intro d hpast hd
  apply Reaches.peek (Cursor.kind?_of_ahead hd)
  show Reaches context (if stmts.isEmpty then _ else _) d [] [] _
  rw [if_neg hnonempty]
  exact .since (hpast.since hts _) (.pure hd)

end Complete

/-- **Completeness**: tokens that derive a value are read as it. -/
theorem Reads.complete {context : Context σ} {p : Phrase σ} {ts after : List (Token σ)}
    {v : p.Value} (h : Reads context p ts after v) : Complete context p ts after v := by
  induction h with
  | noParameters hnl hafter => exact .noParameters hnl hafter
  | lastParameter hnl ht hnl' hafter => exact .lastParameter hnl ht hnl' hafter
  | moreParameters hnl ht hnl' hcomma _ ih => exact .moreParameters hnl ht hnl' hcomma ih
  | expression _ _ ihleft ihrest => exact .expression ihleft ihrest
  | noOperator hafter => exact .noOperator hafter
  | operator ht hlevel hnl hright _ ihright ihrest =>
    exact .operator ht hlevel hnl hright.opens ihright ihrest
  | sign ht _ ih => exact .sign ht ih
  | operand hfirst _ ihfirst ihrest => exact .operand hfirst.opens ihfirst ihrest
  | noSuffix hdot hbracket => exact .noSuffix hdot hbracket
  | method hdot ht _ _ _ ihargs ihlambda ihrest => exact .method hdot ht ihargs ihlambda ihrest
  | access hopener htouching _ hcloser hne _ ihkeys ihrest =>
    exact .access hopener htouching ihkeys hcloser hne ihrest
  | var ht => exact .var ht
  | reference ht => exact .reference ht
  | literal ht => exact .literal ht
  | name hname ih => exact .name hname.opens ih
  | array hopener _ hcloser ih => exact .array hopener ih hcloser
  | hash hopener hnl hfound hcloser ih =>
    exact .hash hopener hnl (hfound.not_newline_of_entries hcloser) ih hcloser
  | parentheses hopener hnl hinner hnl' hcloser ih =>
    exact .parentheses hopener hnl hinner.opens ih hnl' hcloser
  | noElements hnl hafter => exact .noElements hnl hafter
  | lastElement hnl hitem hnl' hnewline hcomma ih =>
    exact .lastElement hnl hitem.opens ih hnl' hnewline hcomma
  | moreElements hnl hitem hnl' hcomma _ ih ihrest =>
    exact .moreElements hnl hitem.opens ih hnl' hcomma ihrest
  | noEntries hafter => exact .noEntries hafter
  | lastEntry hkey hnl₁ harrow hnl₂ hvalue hnl₃ hnewline hcomma ihkey ihvalue =>
    exact .lastEntry hkey.opens ihkey hnl₁ harrow hnl₂ hvalue.opens ihvalue hnl₃ hnewline hcomma
  | moreEntries hkey hnl₁ harrow hnl₂ hvalue hnl₃ hcomma hnl₄ hnewline _ ihkey ihvalue ihrest =>
    exact .moreEntries hkey.opens ihkey hnl₁ harrow hnl₂ hvalue.opens ihvalue hnl₃ hcomma hnl₄
      hnewline ihrest
  | arguments hopener _ hcloser ih => exact .arguments hopener ih hcloser
  | noArguments hafter => exact .noArguments hafter
  | someArguments hargs ih => exact .someArguments hargs.opens ih
  | bareArguments _ _ ihfirst ihrest => exact .bareArguments ihfirst ihrest
  | noMoreArguments hafter => exact .noMoreArguments hafter
  | moreArguments hcomma hnl hfirst _ ihfirst ihrest =>
    exact .moreArguments hcomma hnl hfirst.opens ihfirst ihrest
  | word ht hafter => exact .word ht hafter
  | call ht hcall ih => exact .call ht hcall.opens ih
  | callOf hargs _ ihargs ihlambda => exact .callOf hargs.opens ihargs ihlambda
  | noLambda hpipe hpipes => exact .noLambda hpipe hpipes
  | someLambda hlambda ih => exact .someLambda hlambda.opens ih
  | lambdaNoList ht _ ih => exact .lambdaNoList ht ih
  | lambda hopener _ hcloser _ ihparams ihbody => exact .lambda hopener ihparams hcloser ihbody
  | lambdaBody hnl hbody ih => exact .lambdaBody hnl hbody.opens ih
  | block hopener _ hcloser ih => exact .block hopener ih hcloser
  | noStatements hseps hafter => exact .noStatements hseps hafter
  | moreStatements hseps hfirst hcomma _ ihfirst ihrest =>
    exact .moreStatements hseps hfirst.opens ihfirst hcomma ihrest
  | branching ht _ ih => exact .branching ht ih
  | invocation hcallable ih => exact .invocation hcallable.opens ih
  | callableValue hcallable _ ih ihstmt => exact .callableValue hcallable.opens ih ihstmt
  | value hname hexpr _ ih ihstmt => exact .value hname hexpr.opens ih ihstmt
  | assignment ht htarget hnl hvalue ih => exact .assignment ht htarget hnl hvalue.opens ih
  | noAssignment hafter => exact .noAssignment hafter
  | conditional _ hcondition _ _ ihcondition ihthen ihelse =>
    exact .conditional hcondition.opens ihcondition ihthen ihelse
  | noAlternative helsif helse => exact .noAlternative helsif helse
  | elsifAlternative hnl ht _ ih => exact .elsifAlternative hnl ht ih
  | elseAlternative hnl ht _ ih => exact .elseAlternative hnl ht ih
  | wholeCall ht hcall _ hafter ihcall ihrest =>
    exact .wholeCall ht hcall.opens ihcall ihrest hafter
  | callValue ht hcall _ hwhole ihcall ihrest =>
    exact .callValue ht hcall.opens ihcall ihrest hwhole
  | bareCall ht hbegins hargs hcount ih => exact .bareCall ht hbegins hargs.opens ih hcount
  | wordValue ht hparen hbegins _ ih => exact .wordValue ht hparen hbegins ih
  | continued _ _ ihleft ihrest => exact .continued ihleft ihrest
  | noProgram _ ih => exact .noProgram ih
  | program hstmts hne ih => exact .program ih hne (hstmts.ne_nil_of_statements hne)

/-- A phrase that derives from all the tokens ahead is read as it derives, and nothing is
left. -/
theorem Parser.read_of_reads {p : Parser σ} {q : Phrase σ} {v : q.Value}
    {enough : ∀ context c, (q.parse (bound c)).run context c ≠ .exhausted}
    (h : Reads p.context q p.cursor.ahead [] v) :
    (p.read q.parse enough).1 = .ok v ∧ (p.read q.parse enough).2.cursor.ahead = [] := by
  have hahead : p.cursor.ahead = p.cursor.ahead ++ [] := (List.append_nil _).symm
  obtain hrun | ⟨c, hrun, -, hc⟩ := h.complete.reaches (bound p.cursor) hahead
  · exact absurd hrun (enough _ _)
  · rw [Parser.read_of_done hrun]
    exact ⟨rfl, hc⟩

/-- A source unit that derives is read as it derives. -/
theorem Parser.program_of_reads {p : Parser σ} {v : Program σ}
    (h : Reads p.context .program p.cursor.ahead [] v) : p.program.1 = .ok v :=
  (read_of_reads h).1

end CallGrammar
