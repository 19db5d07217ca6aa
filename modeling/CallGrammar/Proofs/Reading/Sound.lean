import CallGrammar.Parser
import CallGrammar.Proofs.Reading.Passes

/-!
# CallGrammar.Proofs.Reading.Sound

The soundness of the grammar: whatever phrase is read, the tokens that the cursor
passed derive it.  Each function gets one lemma, which supposes soundness with one
nested call less; `sound` puts them together.
-/

namespace CallGrammar

variable {σ : Type}

/-- The cursor stands where the phrase may begin: only `conditional` goes past its
first token without a look at it. -/
def Phrase.Ready : Phrase σ → Cursor σ → Prop
  | conditional sense, c => ∃ k, c.kind? = some k ∧ opensCondition sense k = true
  | _, _ => True

variable [Location σ]

/-- The cursor went past tokens that derive the value. -/
def Recovers (context : Context σ) (p : Phrase σ) (c : Cursor σ) (v : p.Value)
    (c' : Cursor σ) : Prop :=
  ∃ ts, c.Passes ts c' ∧ Reads context p ts c'.ahead v

/-- With `n` nested calls all phrases are read as they derive. -/
def Sound (context : Context σ) (n : Nat) : Prop :=
  ∀ (p : Phrase σ) c v c', p.Ready c → (p.parse n).run context c = .done v c' →
    Recovers context p c v c'

namespace Sound

open Parse

variable {context : Context σ} {n : Nat} {c c' : Cursor σ}

/-! ## lists of parameters -/

/-- Parameters are read up to the closing bar, a comma before each but the first. -/
theorem parameters (ih : Sound context n) {opener : σ} {v : List (Ident σ)}
    (h : (Grammar.parameters opener (n + 1)).run context c = .done v c') :
    Recovers context (.parameters opener) c v c' := by
  unfold Grammar.parameters at h
  rw [run_skipNewlines_bind, run_peek_bind] at h
  obtain ⟨nl, hnl, hall, -⟩ := c.passes_skipNewlines
  split at h
  · next hk =>
    cases h
    exact ⟨nl, hnl, .noParameters hall hk⟩
  · next name hk =>
    obtain ⟨t, ht, htk, -, hplace⟩ := Cursor.passes_next hk
    rw [run_place_bind, run_advance_bind, run_skipNewlines_bind, run_peek_bind, hplace] at h
    obtain ⟨nl', hnl', hall', -⟩ := c.skipNewlines.next.passes_skipNewlines
    split at h
    · next hk' =>
      obtain ⟨comma, hcomma, hcommak, -, -⟩ := Cursor.passes_next hk'
      rw [run_advance_bind] at h
      obtain ⟨rest, d, hrest, h⟩ := bind_done h
      cases h
      obtain ⟨ts, hts, hreads⟩ := ih (.parameters opener) _ _ _ trivial hrest
      exact ⟨_, hnl.trans (ht.cons (hnl'.trans (hcomma.cons hts))),
        .moreParameters hall htk hall' hcommak hreads⟩
    · next hk' =>
      cases h
      exact ⟨_, hnl.trans (ht.cons hnl'), .lastParameter hall htk hall' hk'⟩
    · cases h
    · cases h
  · cases h
  · cases h

/-! ## expressions -/

/-- An expression is an operand, and operators that bind at least as strongly as asked. -/
theorem expression (ih : Sound context n) {floor : Nat} {v : Expr σ}
    (h : (Grammar.expression floor (n + 1)).run context c = .done v c') :
    Recovers context (.expression floor) c v c' := by
  unfold Grammar.expression at h
  obtain ⟨left, d, hleft, h⟩ := bind_done h
  obtain ⟨ts, hts, hl⟩ := ih .operand _ _ _ trivial hleft
  obtain ⟨us, hus, hv⟩ := ih (.operators floor left) _ _ _ trivial h
  rw [hus.1] at hl
  exact ⟨_, hts.trans hus, .expression hl hv⟩

/-- Operators go on as long as one of them binds strongly enough. -/
theorem operators (ih : Sound context n) {floor : Nat} {left v : Expr σ}
    (h : (Grammar.operators floor left (n + 1)).run context c = .done v c') :
    Recovers context (.operators floor left) c v c' := by
  unfold Grammar.operators at h
  rw [run_peek_bind] at h
  split at h
  · next op hop =>
    split at h
    · next hlevel =>
      cases h
      have hafter : ∀ op', (headKind c.ahead).bind BinaryOp.ofKind? = some op' →
          op'.level < floor := by
        intro op' hop'
        have heq : some op = some op' := hop.symm.trans hop'
        cases heq
        exact hlevel
      exact ⟨[], .refl c, .noOperator hafter⟩
    · next hlevel =>
      obtain ⟨k, hk, hop⟩ := Option.bind_eq_some_iff.1 hop
      obtain ⟨t, ht, htk, -, -⟩ := Cursor.passes_next hk
      obtain ⟨nl, hnl, hall, -⟩ := c.next.passes_skipNewlines
      rw [run_advance_bind, run_skipNewlines_bind] at h
      obtain ⟨right, d, hright, h⟩ := bind_done h
      obtain ⟨ts, hts, hr⟩ := ih (.expression (op.level + 1)) _ _ _ trivial hright
      obtain ⟨us, hus, hv⟩ := ih (.operators floor _) _ _ _ trivial h
      rw [hus.1] at hr
      rw [← htk] at hop
      exact ⟨_, ht.cons (hnl.trans (hts.trans hus)),
        .operator hop (Nat.le_of_not_lt hlevel) hall hr hv⟩
  · next hop =>
    cases h
    have hafter : ∀ op, (headKind c.ahead).bind BinaryOp.ofKind? = some op → op.level < floor := by
      intro op hop'
      have heq : none = some op := hop.symm.trans hop'
      cases heq
    exact ⟨[], .refl c, .noOperator hafter⟩

/-- An operand is a sign before another, or a primary with its suffixes. -/
theorem operand (ih : Sound context n) {v : Expr σ}
    (h : (Grammar.operand (n + 1)).run context c = .done v c') :
    Recovers context .operand c v c' := by
  unfold Grammar.operand at h
  rw [run_place_bind, run_peek_bind] at h
  split at h
  · next op hop =>
    obtain ⟨k, hk, hop⟩ := Option.bind_eq_some_iff.1 hop
    obtain ⟨t, ht, htk, -, hplace⟩ := Cursor.passes_next hk
    rw [run_advance_bind, hplace] at h
    obtain ⟨inner, d, hinner, h⟩ := bind_done h
    cases h
    obtain ⟨ts, hts, hi⟩ := ih .operand _ _ _ trivial hinner
    rw [← htk] at hop
    exact ⟨_, ht.cons hts, .sign hop hi⟩
  · obtain ⟨first, d, hfirst, h⟩ := bind_done h
    obtain ⟨ts, hts, hf⟩ := ih .primary _ _ _ trivial hfirst
    obtain ⟨us, hus, hv⟩ := ih (.suffixes first) _ _ _ trivial h
    rw [hus.1] at hf
    exact ⟨_, hts.trans hus, .operand hf hv⟩

/-- Suffixes go on with a dot, or with a bracket that touches the target. -/
theorem suffixes (ih : Sound context n) {target v : Expr σ}
    (h : (Grammar.suffixes target (n + 1)).run context c = .done v c') :
    Recovers context (.suffixes target) c v c' := by
  unfold Grammar.suffixes at h
  rw [run_peek_bind] at h
  split at h
  · next hk =>
    obtain ⟨dot, hdot, hdotk, -, -⟩ := Cursor.passes_next hk
    rw [run_advance_bind] at h
    obtain ⟨callee, d, hname, h⟩ := bind_done h
    obtain ⟨t, name, ht, htk, rfl⟩ := name_done hname
    obtain ⟨args, d₁, hargs, h⟩ := bind_done h
    obtain ⟨ts, hts, ha⟩ := ih .optionalArguments _ _ _ trivial hargs
    obtain ⟨lambda, d₂, hlambda, h⟩ := bind_done h
    obtain ⟨us, hus, hl⟩ := ih .optionalLambda _ _ _ trivial hlambda
    have hpasses := hdot.cons (ht.cons (hts.trans hus))
    rw [run_since_bind, hpasses.since (List.cons_ne_nil _ _)] at h
    obtain ⟨vs, hvs, hv⟩ := ih (.suffixes _) _ _ _ trivial h
    rw [hvs.1] at hl
    rw [hus.1, hvs.1] at ha
    exact ⟨_, hdot.cons (ht.cons (hts.trans (hus.trans hvs))), .method hdotk htk ha hl hv⟩
  · next hk =>
    rw [run_touching_bind] at h
    split at h
    · next htouching =>
      obtain ⟨opener, hopener, hopenerk, htouches, hplace⟩ := Cursor.passes_next hk
      rw [run_place_bind, run_advance_bind, hplace] at h
      obtain ⟨keys, d, hkeys, h⟩ := bind_done h
      obtain ⟨ts, hts, hk⟩ := ih (.elements .access) _ _ _ trivial hkeys
      obtain ⟨closer, e, hclose, h⟩ := bind_done h
      obtain ⟨closer, hcloser, hcloserk, rfl⟩ := close_done hclose
      split at h
      · cases h
      · next hempty =>
        obtain ⟨us, hus, hv⟩ := ih (.suffixes _) _ _ _ trivial h
        rw [hcloser.1, hus.1] at hk
        have hne : keys ≠ [] := fun hnil => hempty (hnil ▸ rfl)
        exact ⟨_, hopener.cons (hts.trans (hcloser.cons hus)),
          .access hopenerk (htouches.trans htouching) hk hcloserk hne hv⟩
    · next htouching =>
      cases h
      have hdot : headKind c.ahead ≠ some (.symbol .dot) := fun hdot => by
        have heq := hk.symm.trans hdot
        cases heq
      exact ⟨[], .refl c, .noSuffix hdot fun _ => Bool.eq_false_iff.2 htouching⟩
  · next hdot hbracket =>
    cases h
    exact ⟨[], .refl c, .noSuffix hdot fun hk => absurd hk hbracket⟩

/-- A primary is told by its first token. -/
theorem primary (ih : Sound context n) {v : Expr σ}
    (h : (Grammar.primary (n + 1)).run context c = .done v c') :
    Recovers context .primary c v c' := by
  unfold Grammar.primary at h
  rw [run_place_bind, run_peek_bind] at h
  split at h
  · next name hk =>
    obtain ⟨t, ht, htk, -, hplace⟩ := Cursor.passes_next hk
    rw [run_advance_bind, run_pure, hplace] at h
    cases h
    exact ⟨_, ht, .var htk⟩
  · next name hk =>
    obtain ⟨t, ht, htk, -, hplace⟩ := Cursor.passes_next hk
    rw [run_advance_bind, run_pure, hplace] at h
    cases h
    exact ⟨_, ht, .reference htk⟩
  · obtain ⟨ts, hts, hv⟩ := ih .callOrWord _ _ _ trivial h
    exact ⟨ts, hts, .name hv⟩
  · next hk =>
    obtain ⟨opener, hopener, hopenerk, -, hplace⟩ := Cursor.passes_next hk
    rw [run_advance_bind, hplace] at h
    obtain ⟨items, d, hitems, h⟩ := bind_done h
    obtain ⟨ts, hts, hi⟩ := ih (.elements .array) _ _ _ trivial hitems
    obtain ⟨closer, e, hclose, h⟩ := bind_done h
    obtain ⟨closer, hcloser, hcloserk, rfl⟩ := close_done hclose
    cases h
    rw [hcloser.1] at hi
    exact ⟨_, hopener.cons (hts.trans hcloser), .array hopenerk hi hcloserk⟩
  · next hk =>
    obtain ⟨opener, hopener, hopenerk, -, hplace⟩ := Cursor.passes_next hk
    obtain ⟨nl, hnl, hall, -⟩ := c.next.passes_skipNewlines
    rw [run_advance_bind, run_skipNewlines_bind, hplace] at h
    obtain ⟨found, d, hfound, h⟩ := bind_done h
    obtain ⟨ts, hts, hf⟩ := ih .entries _ _ _ trivial hfound
    obtain ⟨closer, e, hclose, h⟩ := bind_done h
    obtain ⟨closer, hcloser, hcloserk, rfl⟩ := close_done hclose
    cases h
    rw [hcloser.1] at hf
    exact ⟨_, hopener.cons (hnl.trans (hts.trans hcloser)), .hash hopenerk hall hf hcloserk⟩
  · next hk =>
    obtain ⟨opener, hopener, hopenerk, -, hplace⟩ := Cursor.passes_next hk
    obtain ⟨nl, hnl, hall, -⟩ := c.next.passes_skipNewlines
    rw [run_advance_bind, run_skipNewlines_bind, hplace] at h
    obtain ⟨inner, d, hinner, h⟩ := bind_done h
    obtain ⟨ts, hts, hi⟩ := ih (.expression 0) _ _ _ trivial hinner
    obtain ⟨nl', hnl', hall', -⟩ := d.passes_skipNewlines
    rw [run_skipNewlines_bind, run_peek_bind] at h
    split at h
    · cases h
    · obtain ⟨closer, e, hclose, h⟩ := bind_done h
      obtain ⟨closer, hcloser, hcloserk, rfl⟩ := close_done hclose
      cases h
      rw [hnl'.1, hcloser.1] at hi
      exact ⟨_, hopener.cons (hnl.trans (hts.trans (hnl'.trans hcloser))),
        .parentheses hopenerk hall hi hall' hcloserk⟩
  · split at h
    · next value hvalue =>
      obtain ⟨k, hk, hvalue⟩ := Option.bind_eq_some_iff.1 hvalue
      obtain ⟨t, ht, htk, -, hplace⟩ := Cursor.passes_next hk
      rw [run_advance_bind, run_pure, hplace] at h
      cases h
      rw [← htk] at hvalue
      exact ⟨_, ht, .literal hvalue⟩
    · cases h

/-! ## lists -/

/-- A list is read up to its closer, or to what is no comma behind an element. -/
theorem elements (ih : Sound context n) {construct : Construct} {v : List (Expr σ)}
    (h : (Grammar.elements construct (n + 1)).run context c = .done v c') :
    Recovers context (.elements construct) c v c' := by
  unfold Grammar.elements at h
  rw [run_skipNewlines_bind, run_peek_bind] at h
  obtain ⟨nl, hnl, hall, -⟩ := c.passes_skipNewlines
  split at h
  · next hk =>
    cases h
    have hafter : ∀ k, headKind c.skipNewlines.ahead = some k → k = .symbol construct.closer := by
      intro k hk'
      have heq := hk.symm.trans hk'
      cases heq
    exact ⟨nl, hnl, .noElements hall hafter⟩
  · cases h
  · next kind hkind hk =>
    split at h
    · next hcloser =>
      cases h
      have hafter : ∀ k, headKind c.skipNewlines.ahead = some k →
          k = .symbol construct.closer := by
        intro k hk'
        have heq := Option.some.inj (hk.symm.trans hk')
        rw [← heq, hcloser]
      exact ⟨nl, hnl, .noElements hall hafter⟩
    · obtain ⟨first, d, hfirst, h⟩ := bind_done h
      obtain ⟨ts, hts, hf⟩ := ih (.expression 0) _ _ _ trivial hfirst
      obtain ⟨nl', hnl', hall', hnewline⟩ := d.passes_skipNewlines
      rw [run_skipNewlines_bind, run_peek_bind] at h
      split at h
      · next hk' =>
        obtain ⟨comma, hcomma, hcommak, -, -⟩ := Cursor.passes_next hk'
        rw [run_advance_bind] at h
        obtain ⟨rest, e, hrest, h⟩ := bind_done h
        cases h
        obtain ⟨us, hus, hr⟩ := ih (.elements construct) _ _ _ trivial hrest
        rw [hnl'.1, hcomma.1, hus.1] at hf
        exact ⟨_, hnl.trans (hts.trans (hnl'.trans (hcomma.cons hus))),
          .moreElements hall hf hall' hcommak hr⟩
      · next hcomma =>
        cases h
        rw [hnl'.1] at hf
        exact ⟨_, hnl.trans (hts.trans hnl'), .lastElement hall hf hall' hnewline hcomma⟩

theorem entries (ih : Sound context n) {v : List (Entry σ)}
    (h : (Grammar.entries (n + 1)).run context c = .done v c') :
    Recovers context .entries c v c' := by
  unfold Grammar.entries at h
  rw [run_peek_bind] at h
  split at h
  · next hk =>
    cases h
    have hafter : ∀ k, headKind c.ahead = some k → k = .symbol .closeBrace := by
      intro k hk'
      have heq := hk.symm.trans hk'
      cases heq
    exact ⟨[], .refl c, .noEntries hafter⟩
  · next hk =>
    cases h
    have hafter : ∀ k, headKind c.ahead = some k → k = .symbol .closeBrace :=
      fun k hk' => (Option.some.inj (hk.symm.trans hk')).symm
    exact ⟨[], .refl c, .noEntries hafter⟩
  · cases h
  · obtain ⟨key, d, hkey, h⟩ := bind_done h
    obtain ⟨ts, hts, hk⟩ := ih (.expression 0) _ _ _ trivial hkey
    obtain ⟨nl₁, hnl₁, hall₁, -⟩ := d.passes_skipNewlines
    rw [run_skipNewlines_bind] at h
    obtain ⟨here, d₁, harrow, h⟩ := bind_done h
    obtain ⟨arrow, harrow, harrowk, -⟩ := expect_done harrow
    obtain ⟨nl₂, hnl₂, hall₂, -⟩ := d₁.passes_skipNewlines
    rw [run_skipNewlines_bind] at h
    obtain ⟨value, d₂, hvalue, h⟩ := bind_done h
    obtain ⟨us, hus, hv⟩ := ih (.expression 0) _ _ _ trivial hvalue
    obtain ⟨nl₃, hnl₃, hall₃, hnewline⟩ := d₂.passes_skipNewlines
    rw [run_skipNewlines_bind, run_peek_bind] at h
    split at h
    · next hk' =>
      obtain ⟨comma, hcomma, hcommak, -, -⟩ := Cursor.passes_next hk'
      obtain ⟨nl₄, hnl₄, hall₄, hnewline'⟩ := d₂.skipNewlines.next.passes_skipNewlines
      rw [run_advance_bind, run_skipNewlines_bind] at h
      obtain ⟨rest, e, hrest, h⟩ := bind_done h
      cases h
      obtain ⟨vs, hvs, hr⟩ := ih .entries _ _ _ trivial hrest
      change headKind d₂.skipNewlines.next.skipNewlines.ahead ≠ some .newline at hnewline'
      rw [hvs.1] at hnewline'
      rw [hnl₃.1, hcomma.1, hnl₄.1, hvs.1] at hv
      rw [hnl₁.1, harrow.1, hnl₂.1, hus.1, hnl₃.1, hcomma.1, hnl₄.1, hvs.1] at hk
      exact ⟨_, hts.trans (hnl₁.trans (harrow.cons (hnl₂.trans (hus.trans (hnl₃.trans
          (hcomma.cons (hnl₄.trans hvs))))))),
        .moreEntries hk hall₁ harrowk hall₂ hv hall₃ hcommak hall₄ hnewline' hr⟩
    · next hcomma =>
      cases h
      rw [hnl₃.1] at hv
      rw [hnl₁.1, harrow.1, hnl₂.1, hus.1, hnl₃.1] at hk
      exact ⟨_, hts.trans (hnl₁.trans (harrow.cons (hnl₂.trans (hus.trans hnl₃)))),
        .lastEntry hk hall₁ harrowk hall₂ hv hall₃ hnewline hcomma⟩

/-- A list between parentheses. -/
theorem arguments (ih : Sound context n) {v : List (Expr σ)}
    (h : (Grammar.arguments (n + 1)).run context c = .done v c') :
    Recovers context .arguments c v c' := by
  rw [Grammar.arguments_succ] at h
  obtain ⟨opener, d, hopen, h⟩ := bind_done h
  obtain ⟨opener, hopener, hopenerk, rfl⟩ := expect_done hopen
  obtain ⟨args, d₁, hargs, h⟩ := bind_done h
  obtain ⟨ts, hts, ha⟩ := ih (.elements .argumentList) _ _ _ trivial hargs
  obtain ⟨closer, e, hclose, h⟩ := bind_done h
  obtain ⟨closer, hcloser, hcloserk, -⟩ := closeAs_done hclose
  cases h
  rw [hcloser.1] at ha
  exact ⟨_, hopener.cons (hts.trans hcloser), .arguments hopenerk ha hcloserk⟩

theorem optionalArguments (ih : Sound context n) {v : List (Expr σ)}
    (h : (Grammar.optionalArguments (n + 1)).run context c = .done v c') :
    Recovers context .optionalArguments c v c' := by
  unfold Grammar.optionalArguments at h
  rw [run_peek_bind] at h
  split at h
  · obtain ⟨ts, hts, ha⟩ := ih .arguments _ _ _ trivial h
    exact ⟨ts, hts, .someArguments ha⟩
  · next hparen =>
    cases h
    exact ⟨[], .refl c, .noArguments hparen⟩

theorem bareArguments (ih : Sound context n) {v : List (Expr σ)}
    (h : (Grammar.bareArguments (n + 1)).run context c = .done v c') :
    Recovers context .bareArguments c v c' := by
  unfold Grammar.bareArguments at h
  obtain ⟨first, d, hfirst, h⟩ := bind_done h
  obtain ⟨ts, hts, hf⟩ := ih (.expression 0) _ _ _ trivial hfirst
  obtain ⟨rest, e, hrest, h⟩ := bind_done h
  obtain ⟨us, hus, hr⟩ := ih .moreBareArguments _ _ _ trivial hrest
  cases h
  rw [hus.1] at hf
  exact ⟨_, hts.trans hus, .bareArguments hf hr⟩

theorem moreBareArguments (ih : Sound context n) {v : List (Expr σ)}
    (h : (Grammar.moreBareArguments (n + 1)).run context c = .done v c') :
    Recovers context .moreBareArguments c v c' := by
  unfold Grammar.moreBareArguments at h
  rw [run_peek_bind] at h
  split at h
  · next hk =>
    obtain ⟨comma, hcomma, hcommak, -, -⟩ := Cursor.passes_next hk
    obtain ⟨nl, hnl, hall, -⟩ := c.next.passes_skipNewlines
    rw [run_place_bind, run_advance_bind, run_skipNewlines_bind, run_peek_bind] at h
    split at h
    · cases h
    · cases h
    · cases h
    · cases h
    · obtain ⟨first, d, hfirst, h⟩ := bind_done h
      obtain ⟨ts, hts, hf⟩ := ih (.expression 0) _ _ _ trivial hfirst
      obtain ⟨rest, e, hrest, h⟩ := bind_done h
      obtain ⟨us, hus, hr⟩ := ih .moreBareArguments _ _ _ trivial hrest
      cases h
      rw [hus.1] at hf
      exact ⟨_, hcomma.cons (hnl.trans (hts.trans hus)), .moreArguments hcommak hall hf hr⟩
  · next hcomma =>
    cases h
    exact ⟨[], .refl c, .noMoreArguments hcomma⟩

/-! ## calls -/

theorem callOrWord (ih : Sound context n) {v : Expr σ}
    (h : (Grammar.callOrWord (n + 1)).run context c = .done v c') :
    Recovers context .callOrWord c v c' := by
  unfold Grammar.callOrWord at h
  obtain ⟨callee, d, hname, h⟩ := bind_done h
  obtain ⟨t, name, ht, htk, rfl⟩ := name_done hname
  rw [run_peek_bind] at h
  split at h
  · obtain ⟨ts, hts, hv⟩ := ih (.callOf _) _ _ _ trivial h
    exact ⟨_, ht.cons hts, .call htk hv⟩
  · next hparen =>
    cases h
    exact ⟨_, ht, .word htk hparen⟩

/-- Arguments, and a lambda if one follows. -/
theorem callOf (ih : Sound context n) {callee : Ident σ} {v : Expr σ}
    (h : (Grammar.callOf callee (n + 1)).run context c = .done v c') :
    Recovers context (.callOf callee) c v c' := by
  unfold Grammar.callOf at h
  obtain ⟨args, d, hargs, h⟩ := bind_done h
  obtain ⟨ts, hts, ha⟩ := ih .arguments _ _ _ trivial hargs
  obtain ⟨lambda, e, hlambda, h⟩ := bind_done h
  obtain ⟨us, hus, hl⟩ := ih .optionalLambda _ _ _ trivial hlambda
  have hne : ts ++ us ≠ [] := List.append_ne_nil_of_left_ne_nil ha.opens.ne_nil us
  rw [run_since_bind, (hts.trans hus).since hne] at h
  cases h
  rw [hus.1] at ha
  exact ⟨_, hts.trans hus, .callOf ha hl⟩

theorem optionalLambda (ih : Sound context n) {v : Option (Lambda σ)}
    (h : (Grammar.optionalLambda (n + 1)).run context c = .done v c') :
    Recovers context .optionalLambda c v c' := by
  unfold Grammar.optionalLambda at h
  rw [run_peek_bind] at h
  split at h
  · obtain ⟨lambda, d, hlambda, h⟩ := bind_done h
    cases h
    obtain ⟨ts, hts, hl⟩ := ih .lambda _ _ _ trivial hlambda
    exact ⟨ts, hts, .someLambda hl⟩
  · obtain ⟨lambda, d, hlambda, h⟩ := bind_done h
    cases h
    obtain ⟨ts, hts, hl⟩ := ih .lambda _ _ _ trivial hlambda
    exact ⟨ts, hts, .someLambda hl⟩
  · next hpipe hpipes =>
    cases h
    exact ⟨[], .refl c, .noLambda hpipe hpipes⟩

/-- A bar with parameters, or two bars, and a body. -/
theorem lambda (ih : Sound context n) {v : Lambda σ}
    (h : (Grammar.lambda (n + 1)).run context c = .done v c') :
    Recovers context .lambda c v c' := by
  unfold Grammar.lambda at h
  rw [run_place_bind, run_peek_bind] at h
  split at h
  · next hk =>
    obtain ⟨t, ht, htk, -, hplace⟩ := Cursor.passes_next hk
    rw [run_advance_bind, hplace] at h
    obtain ⟨ts, hts, hv⟩ := ih (.lambdaBody t.span []) _ _ _ trivial h
    exact ⟨_, ht.cons hts, .lambdaNoList htk hv⟩
  · next hk =>
    obtain ⟨opener, hopener, hopenerk, -, hplace⟩ := Cursor.passes_next hk
    rw [run_advance_bind, hplace] at h
    obtain ⟨params, d, hparams, h⟩ := bind_done h
    obtain ⟨ts, hts, hp⟩ := ih (.parameters opener.span) _ _ _ trivial hparams
    obtain ⟨here, e, hclose, h⟩ := bind_done h
    obtain ⟨closer, hcloser, hcloserk, -⟩ := expect_done hclose
    obtain ⟨us, hus, hv⟩ := ih (.lambdaBody opener.span params) _ _ _ trivial h
    rw [hcloser.1, hus.1] at hp
    exact ⟨_, hopener.cons (hts.trans (hcloser.cons hus)), .lambda hopenerk hp hcloserk hv⟩
  · cases h

theorem lambdaBody (ih : Sound context n) {opener : σ} {params : List (Ident σ)} {v : Lambda σ}
    (h : (Grammar.lambdaBody opener params (n + 1)).run context c = .done v c') :
    Recovers context (.lambdaBody opener params) c v c' := by
  unfold Grammar.lambdaBody at h
  rw [run_skipNewlines_bind] at h
  obtain ⟨nl, hnl, hall, -⟩ := c.passes_skipNewlines
  obtain ⟨body, d, hbody, h⟩ := bind_done h
  obtain ⟨ts, hts, hb⟩ := ih (.block .lambdaBody) _ _ _ trivial hbody
  rw [run_since_bind, hts.since hb.opens.ne_nil] at h
  cases h
  exact ⟨_, hnl.trans hts, .lambdaBody hall hb⟩

/-! ## statements -/

/-- Statements between braces. -/
theorem block (ih : Sound context n) {construct : Construct} {v : Block σ}
    (h : (Grammar.block construct (n + 1)).run context c = .done v c') :
    Recovers context (.block construct) c v c' := by
  unfold Grammar.block at h
  obtain ⟨opener, d, hopen, h⟩ := bind_done h
  obtain ⟨opener, hopener, hopenerk, rfl⟩ := expect_done hopen
  obtain ⟨stmts, d₁, hstmts, h⟩ := bind_done h
  obtain ⟨ts, hts, hs⟩ := ih .statements _ _ _ trivial hstmts
  obtain ⟨closer, e, hclose, h⟩ := bind_done h
  obtain ⟨closer, hcloser, hcloserk, rfl⟩ := close_done hclose
  cases h
  rw [hcloser.1] at hs
  exact ⟨_, hopener.cons (hts.trans hcloser), .block hopenerk hs hcloserk⟩

/-- Statements are read with separators between them, up to a brace or the end. -/
theorem statements (ih : Sound context n) {v : List (Stmt σ)}
    (h : (Grammar.statements (n + 1)).run context c = .done v c') :
    Recovers context .statements c v c' := by
  unfold Grammar.statements at h
  rw [run_skipSeparators_bind, run_peek_bind] at h
  obtain ⟨seps, hseps, hall, -⟩ :=
    c.passes_skip fun k => k == .newline || k == .symbol .semicolon
  split at h
  · next hk =>
    cases h
    have hafter : ∀ k, headKind c.skipSeparators.ahead = some k → k = .symbol .closeBrace := by
      intro k hk'
      have heq := hk.symm.trans hk'
      cases heq
    exact ⟨seps, hseps, .noStatements hall hafter⟩
  · next hk =>
    cases h
    have hafter : ∀ k, headKind c.skipSeparators.ahead = some k → k = .symbol .closeBrace :=
      fun k hk' => (Option.some.inj (hk.symm.trans hk')).symm
    exact ⟨seps, hseps, .noStatements hall hafter⟩
  · obtain ⟨first, d, hfirst, h⟩ := bind_done h
    obtain ⟨ts, hts, hf⟩ := ih .statement _ _ _ trivial hfirst
    rw [run_peek_bind] at h
    split at h
    · cases h
    · next hcomma =>
      obtain ⟨rest, e, hrest, h⟩ := bind_done h
      cases h
      obtain ⟨us, hus, hr⟩ := ih .statements _ _ _ trivial hrest
      change headKind d.ahead ≠ _ at hcomma
      rw [hus.1] at hcomma hf
      exact ⟨_, hseps.trans (hts.trans hus), .moreStatements hall hf hcomma hr⟩

/-- A conditional, what begins with a name, or an expression. -/
theorem statement (ih : Sound context n) {v : Stmt σ}
    (h : (Grammar.statement (n + 1)).run context c = .done v c') :
    Recovers context .statement c v c' := by
  unfold Grammar.statement at h
  rw [run_peek_bind] at h
  split at h
  · next hk =>
    obtain ⟨ts, hts, hv⟩ := ih (.conditional .ifTrue) _ _ _ ⟨_, hk, rfl⟩ h
    obtain ⟨t, us, rfl, -⟩ := hv.opens
    have htk : t.kind = .keyword .ifWord := by
      have hhead : c.kind? = some t.kind := congrArg headKind hts.1
      exact Option.some.inj (hhead.symm.trans hk)
    exact ⟨_, hts, .branching (.inl ⟨htk, rfl⟩) hv⟩
  · next hk =>
    obtain ⟨ts, hts, hv⟩ := ih (.conditional .unlessTrue) _ _ _ ⟨_, hk, rfl⟩ h
    obtain ⟨t, us, rfl, -⟩ := hv.opens
    have htk : t.kind = .keyword .unlessWord := by
      have hhead : c.kind? = some t.kind := congrArg headKind hts.1
      exact Option.some.inj (hhead.symm.trans hk)
    exact ⟨_, hts, .branching (.inr ⟨htk, rfl⟩) hv⟩
  · cases h
  · obtain ⟨found, d, hfound, h⟩ := bind_done h
    obtain ⟨ts, hts, hf⟩ := ih .callable _ _ _ trivial hfound
    cases found with
    | statement stmt =>
      cases h
      exact ⟨ts, hts, .invocation hf⟩
    | value expr =>
      obtain ⟨us, hus, hv⟩ := ih (.valueStatement expr) _ _ _ trivial h
      rw [hus.1] at hf
      exact ⟨_, hts.trans hus, .callableValue hf hv⟩
  · next hname =>
    obtain ⟨expr, d, hexpr, h⟩ := bind_done h
    obtain ⟨ts, hts, he⟩ := ih (.expression 0) _ _ _ trivial hexpr
    obtain ⟨us, hus, hv⟩ := ih (.valueStatement expr) _ _ _ trivial h
    rw [hus.1] at he
    have hhead : ∀ name, headKind ts ≠ some (.name name) := by
      intro name hk
      cases ts with
      | nil => cases hk
      | cons t ts => exact hname name ((congrArg headKind hts.1).trans hk)
    exact ⟨_, hts.trans hus, .value hhead he hv⟩

theorem valueStatement (ih : Sound context n) {expr : Expr σ} {v : Stmt σ}
    (h : (Grammar.valueStatement expr (n + 1)).run context c = .done v c') :
    Recovers context (.valueStatement expr) c v c' := by
  unfold Grammar.valueStatement at h
  rw [run_peek_bind] at h
  split at h
  · next hk =>
    split at h
    · next htarget =>
      obtain ⟨t, ht, htk, -, -⟩ := Cursor.passes_next hk
      obtain ⟨nl, hnl, hall, -⟩ := c.next.passes_skipNewlines
      rw [run_advance_bind, run_skipNewlines_bind] at h
      obtain ⟨value, d, hvalue, h⟩ := bind_done h
      cases h
      obtain ⟨ts, hts, hv⟩ := ih (.expression 0) _ _ _ trivial hvalue
      exact ⟨_, ht.cons (hnl.trans hts), .assignment htk htarget hall hv⟩
    · cases h
  · next hassign =>
    cases h
    exact ⟨[], .refl c, .noAssignment hassign⟩

/-- A condition, its branch, and an alternative if one follows. -/
theorem conditional (ih : Sound context n) {sense : Sense} {v : Stmt σ}
    (hready : (Phrase.conditional sense).Ready c)
    (h : (Grammar.conditional sense (n + 1)).run context c = .done v c') :
    Recovers context (.conditional sense) c v c' := by
  obtain ⟨k, hk, hopens⟩ := hready
  obtain ⟨t, ht, htk, -, hplace⟩ := Cursor.passes_next hk
  unfold Grammar.conditional at h
  rw [run_place_bind, run_advance_bind, hplace] at h
  obtain ⟨condition, d₁, hcondition, h⟩ := bind_done h
  obtain ⟨ts, hts, hc⟩ := ih (.expression 0) _ _ _ trivial hcondition
  obtain ⟨thenBranch, d₂, hthen, h⟩ := bind_done h
  obtain ⟨us, hus, hb⟩ := ih (.block (Grammar.branchConstruct sense)) _ _ _ trivial hthen
  obtain ⟨elseBranch, d₃, helse, h⟩ := bind_done h
  obtain ⟨vs, hvs, he⟩ := ih (.alternative sense) _ _ _ trivial helse
  have hne : ts ++ (us ++ vs) ≠ [] :=
    List.append_ne_nil_of_right_ne_nil ts
      (List.append_ne_nil_of_left_ne_nil hb.opens.ne_nil vs)
  rw [run_since_bind, (hts.trans (hus.trans hvs)).since hne] at h
  cases h
  rw [hvs.1] at hb
  rw [hus.1, hvs.1] at hc
  rw [← htk] at hopens
  exact ⟨_, ht.cons (hts.trans (hus.trans hvs)), .conditional hopens hc hb he⟩

/-- An `elsif` or `else` behind line breaks, or none. -/
theorem alternative (ih : Sound context n) {sense : Sense} {v : Option (Block σ)}
    (h : (Grammar.alternative sense (n + 1)).run context c = .done v c') :
    Recovers context (.alternative sense) c v c' := by
  unfold Grammar.alternative at h
  rw [run_peekPastNewlines_bind] at h
  obtain ⟨nl, hnl, hall, -⟩ := c.passes_skipNewlines
  split at h
  · next hk =>
    rw [run_skipNewlines_bind] at h
    obtain ⟨nested, d, hnested, h⟩ := bind_done h
    cases h
    obtain ⟨ts, hts, hv⟩ := ih (.conditional .ifTrue) _ _ _ ⟨_, hk, rfl⟩ hnested
    obtain ⟨t, us, rfl, -⟩ := hv.opens
    have htk : t.kind = .keyword .elsifWord := by
      have hhead : c.skipNewlines.kind? = some t.kind := congrArg headKind hts.1
      exact Option.some.inj (hhead.symm.trans hk)
    exact ⟨_, hnl.trans hts, .elsifAlternative hall htk hv⟩
  · next hk =>
    obtain ⟨t, ht, htk, -, -⟩ := Cursor.passes_next hk
    rw [run_skipNewlines_bind, run_advance_bind] at h
    obtain ⟨body, d, hbody, h⟩ := bind_done h
    cases h
    obtain ⟨ts, hts, hb⟩ := ih (.block .elseBody) _ _ _ trivial hbody
    exact ⟨_, hnl.trans (ht.cons hts), .elseAlternative hall htk hb⟩
  · next helse helsif =>
    cases h
    exact ⟨[], .refl c, .noAlternative (fun hsense hk => helsif hk hsense) helse⟩

/-- A name in statement position: a call, a call that goes on, a call of bare arguments, or a
word. -/
theorem callable (ih : Sound context n) {v : Grammar.Callable σ}
    (h : (Grammar.callable (n + 1)).run context c = .done v c') :
    Recovers context .callable c v c' := by
  unfold Grammar.callable at h
  obtain ⟨callee, d, hname, h⟩ := bind_done h
  obtain ⟨t, name, ht, htk, rfl⟩ := name_done hname
  rw [run_peek_bind] at h
  split at h
  · obtain ⟨call, d₁, hcall, h⟩ := bind_done h
    obtain ⟨ts, hts, hc⟩ := ih (.callOf _) _ _ _ trivial hcall
    obtain ⟨whole, d₂, hwhole, h⟩ := bind_done h
    obtain ⟨us, hus, hw⟩ := ih (.continued call) _ _ _ trivial hwhole
    rw [run_peek_bind] at h
    rw [hus.1] at hc
    split at h
    · next hk =>
      cases h
      exact ⟨_, ht.cons (hts.trans hus), .callValue htk hc hw fun _ => hk⟩
    · next hassign =>
      cases h
      exact ⟨_, ht.cons (hts.trans hus), .wholeCall htk hc hw hassign⟩
    · next whole _ _ hnot _ =>
      cases h
      have hvalue : (∃ span callee args lambda, whole = .call span callee args lambda) →
          headKind c'.ahead = some (.symbol .assign) := by
        rintro ⟨span, callee, args, lambda, rfl⟩
        exact absurd rfl (hnot span callee args lambda)
      exact ⟨_, ht.cons (hts.trans hus), .callValue htk hc hw hvalue⟩
  · next hparen =>
    rw [run_touching_bind] at h
    split at h
    · next hbegins =>
      obtain ⟨args, d₁, hargs, h⟩ := bind_done h
      obtain ⟨ts, hts, ha⟩ := ih .bareArguments _ _ _ trivial hargs
      rw [run_since_bind, hts.since ha.opens.ne_nil, run_takesArguments_bind] at h
      split at h
      · next hcount =>
        cases h
        change Grammar.beginsArgument (headKind d.ahead) (headTouches d.ahead) = true at hbegins
        rw [hts.1] at hbegins
        have hcount : args.length ≤ 1 ∨ name ∈ context.calls := by simpa using hcount
        exact ⟨_, ht.cons hts, .bareCall htk hbegins ha hcount⟩
      · cases h
    · next hbegins =>
      obtain ⟨whole, d₁, hwhole, h⟩ := bind_done h
      cases h
      obtain ⟨ts, hts, hw⟩ := ih (.continued _) _ _ _ trivial hwhole
      change ¬ Grammar.beginsArgument (headKind d.ahead) (headTouches d.ahead) = true at hbegins
      change headKind d.ahead ≠ some (.symbol .openParen) at hparen
      rw [hts.1] at hbegins hparen
      exact ⟨_, ht.cons hts, .wordValue htk hparen (Bool.eq_false_iff.2 hbegins) hw⟩

theorem continued (ih : Sound context n) {first v : Expr σ}
    (h : (Grammar.continued first (n + 1)).run context c = .done v c') :
    Recovers context (.continued first) c v c' := by
  unfold Grammar.continued at h
  obtain ⟨left, d, hleft, h⟩ := bind_done h
  obtain ⟨ts, hts, hl⟩ := ih (.suffixes first) _ _ _ trivial hleft
  obtain ⟨us, hus, hv⟩ := ih (.operators 0 left) _ _ _ trivial h
  rw [hus.1] at hl
  exact ⟨_, hts.trans hus, .continued hl hv⟩

/-- The source unit is read to its end. -/
theorem program (ih : Sound context n) {v : Program σ}
    (h : (Grammar.program (n + 1)).run context c = .done v c') :
    Recovers context .program c v c' := by
  unfold Grammar.program at h
  rw [run_place_bind] at h
  obtain ⟨stmts, d, hstmts, h⟩ := bind_done h
  obtain ⟨ts, hts, hs⟩ := ih .statements _ _ _ trivial hstmts
  rw [run_peek_bind] at h
  split at h
  · next hend =>
    have hahead : d.ahead = [] := by
      obtain ⟨passed, ahead⟩ := d
      cases ahead with
      | nil => rfl
      | cons t ahead => cases hend
    have hplace : c.place context.finish = (Cursor.start ts).place context.finish := by
      rw [Cursor.place, hts.1, hahead, List.append_nil]
      rfl
    rw [hahead] at hs
    split at h
    · next hempty =>
      cases h
      rw [List.isEmpty_iff.1 hempty] at hs
      rw [hplace]
      refine ⟨ts, hts, ?_⟩
      rw [hahead]
      exact .noProgram hs
    · next hempty =>
      have hne : stmts ≠ [] := fun hnil => hempty (hnil ▸ rfl)
      rw [run_since_bind, hts.since (hs.ne_nil_of_statements hne), hplace] at h
      cases h
      refine ⟨ts, hts, ?_⟩
      rw [hahead]
      exact .program hs hne
  · cases h

end Sound

/-! ## every phrase -/

/-- Whatever a phrase reads, its tokens derive. -/
theorem sound (context : Context σ) (n : Nat) : Sound context n := by
  induction n with
  | zero =>
    intro p c v c' _ h
    cases p <;> cases h
  | succ n ih =>
    intro p c v c' hready h
    cases p with
    | parameters => exact ih.parameters h
    | expression => exact ih.expression h
    | operators => exact ih.operators h
    | operand => exact ih.operand h
    | suffixes => exact ih.suffixes h
    | primary => exact ih.primary h
    | elements => exact ih.elements h
    | entries => exact ih.entries h
    | arguments => exact ih.arguments h
    | optionalArguments => exact ih.optionalArguments h
    | bareArguments => exact ih.bareArguments h
    | moreBareArguments => exact ih.moreBareArguments h
    | callOrWord => exact ih.callOrWord h
    | callOf => exact ih.callOf h
    | optionalLambda => exact ih.optionalLambda h
    | lambda => exact ih.lambda h
    | lambdaBody => exact ih.lambdaBody h
    | block => exact ih.block h
    | statements => exact ih.statements h
    | statement => exact ih.statement h
    | valueStatement => exact ih.valueStatement h
    | conditional => exact ih.conditional hready h
    | alternative => exact ih.alternative h
    | callable => exact ih.callable h
    | continued => exact ih.continued h
    | program => exact ih.program h

/-! ## sources -/

omit [Location σ] in
/-- A phrase that is read is read with the parser's bound on nested calls. -/
theorem Parser.done_of_read {α : Type} {p : Parser σ} {phrase : Nat → Parse σ α}
    {enough : ∀ context c, (phrase (bound c)).run context c ≠ .exhausted} {v : α}
    (h : (p.read phrase enough).1 = .ok v) :
    ∃ c, (phrase (bound p.cursor)).run p.context p.cursor = .done v c := by
  unfold read at h
  split at h
  · next c hrun =>
    cases h
    exact ⟨c, hrun⟩
  · cases h
  · next hrun => exact absurd hrun (enough _ _)

omit [Location σ] in
/-- So is a phrase that is refused, with the cursor where the parser stands then. -/
theorem Parser.failed_of_read {α : Type} {p q : Parser σ} {phrase : Nat → Parse σ α}
    {enough : ∀ context c, (phrase (bound c)).run context c ≠ .exhausted} {e : ParseError σ}
    (h : p.read phrase enough = (.error e, q)) :
    (phrase (bound p.cursor)).run p.context p.cursor = .failed e q.cursor := by
  unfold read at h
  split at h
  · cases h
  · next e' c hrun =>
    cases h
    exact hrun
  · next hrun => exact absurd hrun (enough _ _)

/-- A reading that is accepted has a value. -/
theorem exists_of_isOk {ε α : Type} {r : Except ε α} (h : r.isOk = true) : ∃ v, r = .ok v := by
  cases r with
  | ok v => exact ⟨v, rfl⟩
  | error e => cases h

/-- A source unit that is read derives from all the tokens ahead. -/
theorem Parser.reads_of_program {p : Parser σ} {v : Program σ} (h : p.program.1 = .ok v) :
    Reads p.context .program p.cursor.ahead [] v := by
  obtain ⟨c, hrun⟩ := Parser.done_of_read h
  obtain ⟨ts, hts, hv⟩ := (sound p.context (bound p.cursor)) .program _ v c trivial hrun
  have hahead : c.ahead = [] := hv.after_eq_nil_of_program
  rw [hts.1, hahead, List.append_nil]
  rwa [hahead] at hv

/-- **Soundness**: the significant tokens of a source that is accepted derive its
tree. -/
theorem reads_of_parse {calls : StatementCalls} {source : String} {p : Program Span}
    (h : parse calls source = .ok p) :
    Reads (Parser.ofSource calls source).context .program
      (Token.significant (Token.ofText source)) [] p :=
  Parser.reads_of_program h

end CallGrammar
