import CallGrammar.Proofs.Reading.Sound
import CallGrammar.Proofs.Refusal

/-!
# CallGrammar.Proofs.Refusal.Grammar

The refusals of the grammar.  Each function gets one lemma, which supposes the claim
with one nested call less; `refuses` puts them together.
-/

namespace CallGrammar

variable {σ : Type} [Location σ]

/-- What holds where a phrase begins: a parameter list is open at its bar, a target has
just been read, and a block is of a kind that braces enclose. -/
def Phrase.Grounded (context : Context σ) : Phrase σ → Cursor σ → Prop
  | parameters opener, c => c.Innermost .lambdaParameters opener
  | valueStatement target, c =>
    ∃ ts before, c.passed = ts.reverse ++ before ∧ IsTarget context ts c.ahead target
  | block construct, _ => construct.opener = .openBrace
  | p, c => p.Ready c

/-- With `n` nested calls all phrases are refused as they should be. -/
def Refusing (context : Context σ) (n : Nat) : Prop :=
  ∀ (p : Phrase σ) c e d, p.Grounded context c → (p.parse n).run context c = .failed e d →
    Refused context d e

namespace Refusing

open Parse Cursor

variable {context : Context σ} {n : Nat} {c d : Cursor σ} {e : ParseError σ}

/-! ## brackets -/

/-- A phrase in brackets that are open already, their closer, and more. -/
theorem bracketed (ih : Refusing context n) (p : Phrase σ) {construct : Construct}
    {expected : Expectation} {opener : σ} {α : Type} {more : p.Value → σ → Parse σ α}
    (hinside : c.Innermost construct opener) (hbracket : construct ≠ .lambdaParameters)
    (hgrounded : p.Grounded context c) (hready : p.Ready c) (htidy : ∀ ts, p.Tidy ts → Tidy ts)
    (hbalances : ∀ ts, p.Balances ts → Balanced ts)
    (h : (p.parse n >>= fun v => closeAs construct expected opener >>= more v).run context c
      = .failed e d) :
    Refused context d e ∨ ∃ v ts t c', c.Passes (ts ++ [t]) c' ∧
      Reads context p ts (t :: c'.ahead) v ∧ t.kind = .symbol construct.closer ∧
      (more v t.span).run context c' = .failed e d := by
  obtain h | ⟨v, c₁, hv, h⟩ := bind_failed h
  · exact .inl (ih p _ _ _ hgrounded h)
  obtain ⟨ts, hts, hreads⟩ := (sound context n) p _ _ _ hready hv
  obtain h | ⟨closer, c₂, hclose, h⟩ := bind_failed h
  · have hinside := hinside.passes hts (htidy ts hreads.tidy) (hbalances ts hreads.outside)
      (absurd · hbracket)
    exact .inl (closeAs_failed hinside h)
  obtain ⟨t, ht, htk, rfl⟩ := closeAs_done hclose
  have hahead : c₁.ahead = t :: c₂.ahead := ht.1
  exact .inr ⟨v, ts, t, c₂, hts.trans ht, hahead ▸ hreads, htk, h⟩

/-! ## lists of parameters -/

/-- Between the bars of a lambda, the end is reported for it. -/
theorem parameters (ih : Refusing context n) {opener : σ}
    (hinside : c.Innermost .lambdaParameters opener)
    (h : (Grammar.parameters opener (n + 1)).run context c = .failed e d) :
    Refused context d e := by
  unfold Grammar.parameters at h
  rw [run_skipNewlines_bind, run_peek_bind] at h
  have hinside := hinside.skipNewlines
  split at h
  · cases h
  · next name hk =>
    obtain ⟨t, ht, htk, -, -⟩ := passes_next hk
    have hinside := hinside.passes_parameter ht (by rw [htk]; rfl)
    rw [run_place_bind, run_advance_bind, run_skipNewlines_bind, run_peek_bind] at h
    have hinside := hinside.skipNewlines
    split at h
    · next hk' =>
      obtain ⟨comma, hcomma, hcommak, -, -⟩ := passes_next hk'
      have hinside := hinside.passes_parameter hcomma (by rw [hcommak]; rfl)
      rw [run_advance_bind] at h
      obtain h | ⟨rest, c', -, h⟩ := bind_failed h
      · exact ih (.parameters opener) _ _ _ hinside h
      · cases h
    · cases h
    · next hk' => exact unterminated_failed hinside hk' h
    · exact unexpected_failed h
  · next hk => exact unterminated_failed hinside hk h
  · exact unexpected_failed h

/-! ## expressions -/

/-- Where a list is without elements, there are line breaks at most. -/
theorem newlines_of_no_elements {construct : Construct} {ts after : List (Token σ)}
    (h : Reads context (.elements construct) ts after ([] : List (Expr σ))) : Newlines ts := by
  cases h with
  | noElements hnl => exact hnl

theorem expression (ih : Refusing context n) {floor : Nat}
    (h : (Grammar.expression floor (n + 1)).run context c = .failed e d) :
    Refused context d e := by
  unfold Grammar.expression at h
  obtain h | ⟨left, c', -, h⟩ := bind_failed h
  · exact ih .operand _ _ _ trivial h
  · exact ih (.operators floor left) _ _ _ trivial h

theorem operators (ih : Refusing context n) {floor : Nat} {left : Expr σ}
    (h : (Grammar.operators floor left (n + 1)).run context c = .failed e d) :
    Refused context d e := by
  unfold Grammar.operators at h
  rw [run_peek_bind] at h
  split at h
  · next op hop =>
    split at h
    · cases h
    · obtain ⟨k, hk, hop⟩ := Option.bind_eq_some_iff.1 hop
      rw [run_advance_bind, run_skipNewlines_bind] at h
      obtain h | ⟨right, c', -, h⟩ := bind_failed h
      · exact ih (.expression (op.level + 1)) _ _ _ trivial h
      · exact ih (.operators floor _) _ _ _ trivial h
  · cases h

theorem operand (ih : Refusing context n)
    (h : (Grammar.operand (n + 1)).run context c = .failed e d) : Refused context d e := by
  unfold Grammar.operand at h
  rw [run_place_bind, run_peek_bind] at h
  split at h
  · next op hop =>
    obtain ⟨k, hk, hop⟩ := Option.bind_eq_some_iff.1 hop
    rw [run_advance_bind] at h
    obtain h | ⟨inner, c', -, h⟩ := bind_failed h
    · exact ih .operand _ _ _ trivial h
    · cases h
  · obtain h | ⟨first, c', -, h⟩ := bind_failed h
    · exact ih .primary _ _ _ trivial h
    · exact ih (.suffixes first) _ _ _ trivial h

theorem suffixes (ih : Refusing context n) {target : Expr σ}
    (h : (Grammar.suffixes target (n + 1)).run context c = .failed e d) :
    Refused context d e := by
  unfold Grammar.suffixes at h
  rw [run_peek_bind] at h
  split at h
  · next hk =>
    rw [run_advance_bind] at h
    obtain h | ⟨callee, c₁, -, h⟩ := bind_failed h
    · exact name_failed h
    obtain h | ⟨args, c₂, -, h⟩ := bind_failed h
    · exact ih .optionalArguments _ _ _ trivial h
    obtain h | ⟨lambda, c₃, -, h⟩ := bind_failed h
    · exact ih .optionalLambda _ _ _ trivial h
    rw [run_since_bind] at h
    exact ih (.suffixes _) _ _ _ trivial h
  · next hk =>
    rw [run_touching_bind] at h
    split at h
    · next htouching =>
      have hinside : c.next.Innermost .access (c.place context.finish) := .next hk _
      rw [run_place_bind, run_advance_bind] at h
      obtain h | ⟨keys, ts, t, c₁, hts, hkeys, htk, h⟩ :=
        ih.bracketed (.elements .access) hinside (by decide) trivial trivial (fun _ h => h)
          (fun _ => Outside.balanced) h
      · exact h
      have hvalid : AllKinds Kind.isValid [t] := by simp [AllKinds, htk, Kind.isValid]
      split at h
      · next hempty =>
        rw [run_fail] at h
        cases h
        obtain rfl := List.isEmpty_iff.1 hempty
        obtain ⟨opener, hopener, hopenerk, htouches, -⟩ := passes_next hk
        have hpassed : d.passed = t :: (ts.reverse ++ opener :: c.passed) := by
          rw [hts.2, hopener.2]
          simp
        exact (Refused.emptyAccess hpassed hopenerk (htouches.trans htouching)
          (newlines_of_no_elements hkeys) htk)
      · exact ih (.suffixes _) _ _ _ trivial h
    · cases h
  · cases h

/-- A primary reports what begins no expression, or what is wrong in its brackets. -/
theorem primary (ih : Refusing context n)
    (h : (Grammar.primary (n + 1)).run context c = .failed e d) : Refused context d e := by
  unfold Grammar.primary at h
  rw [run_place_bind, run_peek_bind] at h
  split at h
  · rw [run_advance_bind, run_pure] at h
    cases h
  · rw [run_advance_bind, run_pure] at h
    cases h
  · exact ih .callOrWord _ _ _ trivial h
  · next hk =>
    have hinside : c.next.Innermost .array (c.place context.finish) := .next hk _
    rw [run_advance_bind] at h
    obtain h | ⟨items, ts, t, c₁, -, -, -, h⟩ :=
      ih.bracketed (.elements .array) hinside (by decide) trivial trivial (fun _ h => h)
          (fun _ => Outside.balanced) h
    · exact h
    · cases h
  · next hk =>
    have hinside : c.next.Innermost .hash (c.place context.finish) := .next hk _
    rw [run_advance_bind, run_skipNewlines_bind] at h
    obtain h | ⟨found, ts, t, c₁, -, -, -, h⟩ :=
      ih.bracketed .entries hinside.skipNewlines (by decide) trivial trivial (fun _ h => h)
          (fun _ => Outside.balanced) h
    · exact h
    · cases h
  · next hk =>
    have hinside : c.next.Innermost .parentheses (c.place context.finish) := .next hk _
    have hinside := hinside.skipNewlines
    rw [run_advance_bind, run_skipNewlines_bind] at h
    obtain h | ⟨inner, c₁, hinner, h⟩ := bind_failed h
    · exact ih (.expression 0) _ _ _ trivial h
    obtain ⟨ts, hts, hreads⟩ := (sound context n) (.expression 0) _ _ _ trivial hinner
    have hinside := hinside.passes hts hreads.tidy hreads.outside.balanced
      (absurd · (by decide))
    have hinside := hinside.skipNewlines
    rw [run_skipNewlines_bind, run_peek_bind] at h
    split at h
    · next hk' => exact strayComma_failed hk' h
    · obtain h | ⟨closer, c₂, -, h⟩ := bind_failed h
      · exact close_failed hinside h
      · cases h
  · split at h
    · rw [run_advance_bind, run_pure] at h
      cases h
    · exact unexpected_failed h

/-! ## lists -/

/-- A list has no closer of its own, so it leaves the end to its caller. -/
theorem elements (ih : Refusing context n) {construct : Construct}
    (h : (Grammar.elements construct (n + 1)).run context c = .failed e d) :
    Refused context d e := by
  unfold Grammar.elements at h
  rw [run_skipNewlines_bind, run_peek_bind] at h
  split at h
  · cases h
  · next hk => exact strayComma_failed hk h
  · split at h
    · cases h
    · obtain h | ⟨first, c', -, h⟩ := bind_failed h
      · exact ih (.expression 0) _ _ _ trivial h
      rw [run_skipNewlines_bind, run_peek_bind] at h
      split at h
      · next hk =>
        rw [run_advance_bind] at h
        obtain h | ⟨rest, c'', -, h⟩ := bind_failed h
        · exact ih (.elements construct) _ _ _ trivial h
        · cases h
      · cases h

theorem entries (ih : Refusing context n)
    (h : (Grammar.entries (n + 1)).run context c = .failed e d) : Refused context d e := by
  unfold Grammar.entries at h
  rw [run_peek_bind] at h
  split at h
  · cases h
  · cases h
  · next hk => exact strayComma_failed hk h
  · obtain h | ⟨key, c₁, -, h⟩ := bind_failed h
    · exact ih (.expression 0) _ _ _ trivial h
    rw [run_skipNewlines_bind] at h
    obtain h | ⟨arrow, c₂, -, h⟩ := bind_failed h
    · exact expect_failed h
    rw [run_skipNewlines_bind] at h
    obtain h | ⟨value, c₃, -, h⟩ := bind_failed h
    · exact ih (.expression 0) _ _ _ trivial h
    rw [run_skipNewlines_bind, run_peek_bind] at h
    split at h
    · next hk =>
      rw [run_advance_bind, run_skipNewlines_bind] at h
      obtain h | ⟨rest, c₄, -, h⟩ := bind_failed h
      · exact ih .entries _ _ _ trivial h
      · cases h
    · cases h

theorem arguments (ih : Refusing context n)
    (h : (Grammar.arguments (n + 1)).run context c = .failed e d) : Refused context d e := by
  rw [Grammar.arguments_succ] at h
  obtain h | ⟨opener, c₁, hopener, h⟩ := bind_failed h
  · exact expect_failed h
  obtain ⟨t, ht, htk, rfl⟩ := expect_done hopener
  have hinside : c₁.Innermost .argumentList t.span := .of_opener ht htk
  obtain h | ⟨args, ts, closer, c₂, -, -, -, h⟩ :=
    ih.bracketed (.elements .argumentList) hinside (by decide) trivial trivial (fun _ h => h)
          (fun _ => Outside.balanced) h
  · exact h
  · cases h

theorem optionalArguments (ih : Refusing context n)
    (h : (Grammar.optionalArguments (n + 1)).run context c = .failed e d) :
    Refused context d e := by
  unfold Grammar.optionalArguments at h
  rw [run_peek_bind] at h
  split at h
  · exact ih .arguments _ _ _ trivial h
  · cases h

theorem bareArguments (ih : Refusing context n)
    (h : (Grammar.bareArguments (n + 1)).run context c = .failed e d) :
    Refused context d e := by
  unfold Grammar.bareArguments at h
  obtain h | ⟨first, c₁, -, h⟩ := bind_failed h
  · exact ih (.expression 0) _ _ _ trivial h
  obtain h | ⟨rest, c₂, -, h⟩ := bind_failed h
  · exact ih .moreBareArguments _ _ _ trivial h
  · cases h

/-- A comma with no argument after it. -/
theorem comma_failed {nl : List (Token σ)} {comma : Token σ} {α : Type}
    (hcomma : c.Passes (comma :: nl) d) (hk : comma.kind = .symbol .comma) {d' : Cursor σ}
    (h : (fail (.strayComma comma.span) : Parse σ α).run context d = .failed e d') :
    Refused context d' e := by
  rw [run_fail] at h
  cases h
  have hmem : comma ∈ d.passed := by rw [hcomma.2]; simp
  exact Refused.strayComma (.inl hmem) hk

theorem moreBareArguments (ih : Refusing context n)
    (h : (Grammar.moreBareArguments (n + 1)).run context c = .failed e d) :
    Refused context d e := by
  unfold Grammar.moreBareArguments at h
  rw [run_peek_bind] at h
  split at h
  · next hk =>
    obtain ⟨comma, hcomma, hcommak, -, hplace⟩ := passes_next hk
    obtain ⟨nl, hnl, -, -⟩ := c.next.passes_skipNewlines
    have hpasses := hcomma.cons hnl
    rw [run_place_bind, run_advance_bind, run_skipNewlines_bind, run_peek_bind, hplace] at h
    split at h
    · next hk' => exact strayComma_failed hk' h
    · exact comma_failed hpasses hcommak h
    · exact comma_failed hpasses hcommak h
    · exact comma_failed hpasses hcommak h
    · obtain h | ⟨first, c₁, -, h⟩ := bind_failed h
      · exact ih (.expression 0) _ _ _ trivial h
      obtain h | ⟨rest, c₂, -, h⟩ := bind_failed h
      · exact ih .moreBareArguments _ _ _ trivial h
      · cases h
  · cases h

/-! ## calls -/

theorem callOrWord (ih : Refusing context n)
    (h : (Grammar.callOrWord (n + 1)).run context c = .failed e d) : Refused context d e := by
  unfold Grammar.callOrWord at h
  obtain h | ⟨callee, c₁, -, h⟩ := bind_failed h
  · exact name_failed h
  rw [run_peek_bind] at h
  split at h
  · exact ih (.callOf callee) _ _ _ trivial h
  · cases h

theorem callOf (ih : Refusing context n) {callee : Ident σ}
    (h : (Grammar.callOf callee (n + 1)).run context c = .failed e d) :
    Refused context d e := by
  unfold Grammar.callOf at h
  obtain h | ⟨args, c₁, -, h⟩ := bind_failed h
  · exact ih .arguments _ _ _ trivial h
  obtain h | ⟨lambda, c₂, -, h⟩ := bind_failed h
  · exact ih .optionalLambda _ _ _ trivial h
  · cases h

theorem optionalLambda (ih : Refusing context n)
    (h : (Grammar.optionalLambda (n + 1)).run context c = .failed e d) :
    Refused context d e := by
  have hsome (h : (Grammar.lambda n >>= fun found => pure (some found)).run context c
      = .failed e d) : Refused context d e := by
    obtain h | ⟨found, c₁, -, h⟩ := bind_failed h
    · exact ih .lambda _ _ _ trivial h
    · cases h
  unfold Grammar.optionalLambda at h
  rw [run_peek_bind] at h
  split at h
  · exact hsome h
  · exact hsome h
  · cases h

theorem lambda (ih : Refusing context n)
    (h : (Grammar.lambda (n + 1)).run context c = .failed e d) : Refused context d e := by
  unfold Grammar.lambda at h
  rw [run_place_bind, run_peek_bind] at h
  split at h
  · next hk =>
    rw [run_advance_bind] at h
    exact ih (.lambdaBody _ []) _ _ _ trivial h
  · next hk =>
    have hinside : c.next.Innermost .lambdaParameters (c.place context.finish) := .next hk _
    rw [run_advance_bind] at h
    obtain h | ⟨params, c₁, -, h⟩ := bind_failed h
    · exact ih (.parameters _) _ _ _ hinside h
    obtain h | ⟨bar, c₂, -, h⟩ := bind_failed h
    · exact expect_failed h
    · exact ih (.lambdaBody _ params) _ _ _ trivial h
  · exact unexpected_failed h

theorem lambdaBody (ih : Refusing context n) {opener : σ} {params : List (Ident σ)}
    (h : (Grammar.lambdaBody opener params (n + 1)).run context c = .failed e d) :
    Refused context d e := by
  unfold Grammar.lambdaBody at h
  rw [run_skipNewlines_bind] at h
  obtain h | ⟨body, c₁, -, h⟩ := bind_failed h
  · exact ih (.block .lambdaBody) _ _ _ rfl h
  · cases h

/-! ## statements -/

theorem block (ih : Refusing context n) {construct : Construct}
    (hopens : construct.opener = .openBrace)
    (h : (Grammar.block construct (n + 1)).run context c = .failed e d) :
    Refused context d e := by
  unfold Grammar.block at h
  obtain h | ⟨opener, c₁, hopener, h⟩ := bind_failed h
  · exact expect_failed h
  obtain ⟨t, ht, htk, rfl⟩ := expect_done hopener
  have hinside : c₁.Innermost construct t.span := .of_opener ht (by rw [htk, hopens])
  have hbracket : construct ≠ .lambdaParameters := by
    rintro rfl
    cases hopens
  obtain h | ⟨stmts, ts, closer, c₂, -, -, -, h⟩ :=
    ih.bracketed .statements hinside hbracket trivial trivial (fun _ h => h)
          (fun _ => Outside.balanced) h
  · exact h
  · cases h

/-- A comma behind a statement is stray. -/
theorem statements (ih : Refusing context n)
    (h : (Grammar.statements (n + 1)).run context c = .failed e d) : Refused context d e := by
  unfold Grammar.statements at h
  rw [run_skipSeparators_bind, run_peek_bind] at h
  split at h
  · cases h
  · cases h
  · obtain h | ⟨first, c₁, -, h⟩ := bind_failed h
    · exact ih .statement _ _ _ trivial h
    rw [run_peek_bind] at h
    split at h
    · next hk => exact strayComma_failed hk h
    · obtain h | ⟨rest, c₂, -, h⟩ := bind_failed h
      · exact ih .statements _ _ _ trivial h
      · cases h

theorem statement (ih : Refusing context n)
    (h : (Grammar.statement (n + 1)).run context c = .failed e d) : Refused context d e := by
  unfold Grammar.statement at h
  rw [run_peek_bind] at h
  split at h
  · next hk => exact ih (.conditional .ifTrue) _ _ _ ⟨_, hk, rfl⟩ h
  · next hk => exact ih (.conditional .unlessTrue) _ _ _ ⟨_, hk, rfl⟩ h
  · next hk => exact strayComma_failed hk h
  · obtain h | ⟨found, c₁, hcallable, h⟩ := bind_failed h
    · exact ih .callable _ _ _ trivial h
    obtain ⟨ts, hts, hreads⟩ := (sound context n) .callable _ _ _ trivial hcallable
    cases found with
    | statement stmt => cases h
    | value target =>
      exact ih (.valueStatement target) _ _ _ ⟨ts, c.passed, hts.2, .inr hreads⟩ h
  · obtain h | ⟨target, c₁, htarget, h⟩ := bind_failed h
    · exact ih (.expression 0) _ _ _ trivial h
    obtain ⟨ts, hts, hreads⟩ := (sound context n) (.expression 0) _ _ _ trivial htarget
    exact ih (.valueStatement target) _ _ _ ⟨ts, c.passed, hts.2, .inl hreads⟩ h

/-- A sign of assignment behind what is no target reports that. -/
theorem valueStatement (ih : Refusing context n) {target : Expr σ}
    (hgrounded : (Phrase.valueStatement target).Grounded context c)
    (h : (Grammar.valueStatement target (n + 1)).run context c = .failed e d) :
    Refused context d e := by
  unfold Grammar.valueStatement at h
  rw [run_peek_bind] at h
  split at h
  · next hk =>
    split at h
    · rw [run_advance_bind, run_skipNewlines_bind] at h
      obtain h | ⟨value, c₁, -, h⟩ := bind_failed h
      · exact ih (.expression 0) _ _ _ trivial h
      · cases h
    · next hnot =>
      rw [run_fail] at h
      cases h
      obtain ⟨ts, before, hpassed, htarget⟩ := hgrounded
      exact Refused.unassignable hpassed htarget hk (Bool.eq_false_iff.2 hnot)
  · cases h

theorem conditional (ih : Refusing context n) {sense : Sense}
    (hready : (Phrase.conditional sense).Ready c)
    (h : (Grammar.conditional sense (n + 1)).run context c = .failed e d) :
    Refused context d e := by
  obtain ⟨k, hk, hopens⟩ := hready
  unfold Grammar.conditional at h
  rw [run_place_bind, run_advance_bind] at h
  obtain h | ⟨condition, c₁, -, h⟩ := bind_failed h
  · exact ih (.expression 0) _ _ _ trivial h
  obtain h | ⟨thenBranch, c₂, -, h⟩ := bind_failed h
  · have hbranch : (Grammar.branchConstruct sense).opener = .openBrace := by cases sense <;> rfl
    exact ih (.block (Grammar.branchConstruct sense)) _ _ _ hbranch h
  obtain h | ⟨elseBranch, c₃, -, h⟩ := bind_failed h
  · exact ih (.alternative sense) _ _ _ trivial h
  · cases h

theorem alternative (ih : Refusing context n) {sense : Sense}
    (h : (Grammar.alternative sense (n + 1)).run context c = .failed e d) :
    Refused context d e := by
  unfold Grammar.alternative at h
  rw [run_peekPastNewlines_bind] at h
  split at h
  · next _ hk =>
    rw [run_skipNewlines_bind] at h
    obtain h | ⟨nested, c₁, -, h⟩ := bind_failed h
    · exact ih (.conditional .ifTrue) _ _ _ ⟨_, hk, rfl⟩ h
    · cases h
  · next hk =>
    rw [run_skipNewlines_bind, run_advance_bind] at h
    obtain h | ⟨body, c₁, -, h⟩ := bind_failed h
    · exact ih (.block .elseBody) _ _ _ rfl h
    · cases h
  · cases h

theorem continued (ih : Refusing context n) {first : Expr σ}
    (h : (Grammar.continued first (n + 1)).run context c = .failed e d) :
    Refused context d e := by
  unfold Grammar.continued at h
  obtain h | ⟨left, c₁, -, h⟩ := bind_failed h
  · exact ih (.suffixes first) _ _ _ trivial h
  · exact ih (.operators 0 left) _ _ _ trivial h

/-- A name with more than one bare argument needs parentheses if it may not take them. -/
theorem callable (ih : Refusing context n)
    (h : (Grammar.callable (n + 1)).run context c = .failed e d) : Refused context d e := by
  unfold Grammar.callable at h
  obtain h | ⟨callee, c₁, hname, h⟩ := bind_failed h
  · exact name_failed h
  rw [run_peek_bind] at h
  split at h
  · obtain h | ⟨call, c₂, -, h⟩ := bind_failed h
    · exact ih (.callOf callee) _ _ _ trivial h
    obtain h | ⟨whole, c₃, -, h⟩ := bind_failed h
    · exact ih (.continued call) _ _ _ trivial h
    rw [run_peek_bind] at h
    split at h <;> cases h
  · next hparen =>
    rw [run_touching_bind] at h
    split at h
    · obtain h | ⟨args, c₂, hargs, h⟩ := bind_failed h
      · exact ih .bareArguments _ _ _ trivial h
      obtain ⟨ts, hts, hreads⟩ := (sound context n) .bareArguments _ _ _ trivial hargs
      have hopens : BeginsWith beginsExpression ts := hreads.opens
      rw [run_since_bind, run_takesArguments_bind] at h
      split at h
      · cases h
      · next hcalls =>
        obtain ⟨t, name, ht, htk, rfl⟩ := name_done hname
        rw [run_fail, hts.since hopens.ne_nil] at h
        cases h
        have hpassed : d.passed = ts.reverse ++ t :: c.passed := by rw [hts.2, ht.2]; rfl
        have hunknown : name ∉ context.calls := by
          intro hmem
          simp [hmem] at hcalls
        have hhead : headKind ts ≠ some (.symbol .openParen) := by
          obtain ⟨u, us, rfl, -⟩ := hopens
          have hkind : c₁.kind? = some u.kind := by rw [kind?_of_ahead hts.1]; rfl
          rw [hkind] at hparen
          exact fun heq => hparen heq
        exact Refused.needsParentheses hpassed htk hunknown hopens hhead
    · obtain h | ⟨whole, c₂, -, h⟩ := bind_failed h
      · exact ih (.continued _) _ _ _ trivial h
      · cases h

theorem program (ih : Refusing context n)
    (h : (Grammar.program (n + 1)).run context c = .failed e d) : Refused context d e := by
  unfold Grammar.program at h
  rw [run_place_bind] at h
  obtain h | ⟨stmts, c₁, -, h⟩ := bind_failed h
  · exact ih .statements _ _ _ trivial h
  rw [run_peek_bind] at h
  split at h
  · split at h
    · cases h
    · cases h
  · exact unexpected_failed h

/-! ## all phrases -/

/-- Without calls left there is no error. -/
theorem zero (context : Context σ) : Refusing context 0 := by
  intro p c e d _ h
  cases p <;> cases h

/-- One more call: each phrase reports rightly if those that it calls do. -/
theorem succ (ih : Refusing context n) : Refusing context (n + 1) := by
  intro p c e d hgrounded h
  cases p with
  | parameters opener => exact ih.parameters hgrounded h
  | expression floor => exact ih.expression h
  | operators floor left => exact ih.operators h
  | operand => exact ih.operand h
  | suffixes target => exact ih.suffixes h
  | primary => exact ih.primary h
  | elements construct => exact ih.elements h
  | entries => exact ih.entries h
  | arguments => exact ih.arguments h
  | optionalArguments => exact ih.optionalArguments h
  | bareArguments => exact ih.bareArguments h
  | moreBareArguments => exact ih.moreBareArguments h
  | callOrWord => exact ih.callOrWord h
  | callOf callee => exact ih.callOf h
  | optionalLambda => exact ih.optionalLambda h
  | lambda => exact ih.lambda h
  | lambdaBody opener params => exact ih.lambdaBody h
  | block construct => exact ih.block hgrounded h
  | statements => exact ih.statements h
  | statement => exact ih.statement h
  | valueStatement target => exact ih.valueStatement hgrounded h
  | conditional sense => exact ih.conditional hgrounded h
  | alternative sense => exact ih.alternative h
  | callable => exact ih.callable h
  | continued first => exact ih.continued h
  | program => exact ih.program h

end Refusing

/-- Every phrase reports rightly. -/
theorem refusing (context : Context σ) (n : Nat) : Refusing context n := by
  induction n with
  | zero => exact .zero context
  | succ n ih => exact ih.succ

/-- **Refusal**: a phrase that is refused has gone past valid tokens only, and its error
says what stands where it was found. -/
theorem refuses (n : Nat) (p : Phrase σ) {context : Context σ} {c d : Cursor σ} {e : ParseError σ}
    (henters : p.Enters .token none) (hgrounded : p.Grounded context c)
    (h : (p.parse n).run context c = .failed e d) : Refuses context c e d := by
  have hcrossing : Crossing context none .token (p.parse n) := p.crosses n henters
  have hcross := hcrossing c nofun
  rw [h] at hcross
  exact ⟨hcross, refusing context n p c e d hgrounded h⟩

end CallGrammar
