import CallGrammar.Grammar

/-!
# CallGrammar.Grammar.Fuel

A bound on nested calls that is always enough: eight for each token ahead, and
eight more.  Every phrase that calls itself again passes a token first, and
between two tokens at most seven functions call each other (`statements` down
to `primary`).

The main statements are the `…_within` theorems: with such a bound a phrase is
read or refused, and the phrases that cannot be empty pass at least one token.
-/

namespace CallGrammar

variable {σ α β : Type}

/-! ## outcomes with an answer -/

/-- There is an answer, and a value leaves fewer than `m` tokens ahead. -/
def Outcome.Within (o : Outcome σ α) (m : Nat) : Prop :=
  match o with
  | .done _ c => c.ahead.length < m
  | .failed _ _ => True
  | .exhausted => False

namespace Outcome

/-- More tokens may be left ahead. -/
theorem Within.weaken {o : Outcome σ α} {m n : Nat} (h : o.Within m) (hmn : m ≤ n) :
    o.Within n := by
  cases o with
  | done v c => exact Nat.lt_of_lt_of_le h hmn
  | failed e c => trivial
  | exhausted => exact h.elim

/-- Such an outcome is an answer. -/
theorem Within.ne_exhausted {o : Outcome σ α} {m : Nat} (h : o.Within m) : o ≠ .exhausted := by
  rintro rfl
  exact h

end Outcome

/-! ## positions -/

namespace Cursor

/-- A step never goes back. -/
theorem length_next_le (c : Cursor σ) : c.next.ahead.length ≤ c.ahead.length := by
  obtain ⟨passed, ahead⟩ := c
  cases ahead <;> simp [next]

/-- Over a token, the cursor comes nearer to the end. -/
theorem length_next_lt {c : Cursor σ} {k : Kind} (h : c.kind? = some k) :
    c.next.ahead.length < c.ahead.length := by
  obtain ⟨passed, ahead⟩ := c
  cases ahead with
  | nil => simp [kind?] at h
  | cons t ahead => simp [next]

/-- Skipping never goes back. -/
theorem length_skip_le (p : Kind → Bool) (c : Cursor σ) :
    (c.skip p).ahead.length ≤ c.ahead.length :=
  (List.dropWhile_sublist _).length_le

theorem length_skipNewlines_le (c : Cursor σ) :
    c.skipNewlines.ahead.length ≤ c.ahead.length := length_skip_le _ c

theorem length_skipSeparators_le (c : Cursor σ) :
    c.skipSeparators.ahead.length ≤ c.ahead.length := length_skip_le _ c

end Cursor

/-! ## steps -/

namespace Parse

/-- A parser after another has an answer, and leaves what the second one leaves. -/
theorem bind_within {p : Parse σ α} {q : α → Parse σ β} {context : Context σ} {c : Cursor σ}
    {m n : Nat} (hp : (p.run context c).Within m)
    (hq : ∀ v c', c'.ahead.length < m → ((q v).run context c').Within n) :
    ((p >>= q).run context c).Within n := by
  rw [run_bind]
  cases h : p.run context c with
  | done v c' => exact hq v c' (by simpa [h, Outcome.Within] using hp)
  | failed e c' => trivial
  | exhausted => simp [h, Outcome.Within] at hp

/-- A token that is expected is passed, so fewer are left than there were. -/
theorem expect_within (k : Kind) (e : Expectation) (context : Context σ) (c : Cursor σ) :
    ((expect k e).run context c).Within c.ahead.length := by
  unfold expect
  simp only [run_peek_bind]
  split
  · rename_i h
    simpa [Outcome.Within] using Cursor.length_next_lt h
  · trivial

/-- A symbol that is read is passed. -/
theorem symbol_within (s : Symbol) (context : Context σ) (c : Cursor σ) :
    ((symbol s).run context c).Within c.ahead.length := expect_within _ _ context c

/-- A closer that is read is passed. -/
theorem close_within (construct : Construct) (opener : σ) (context : Context σ)
    (c : Cursor σ) : ((close construct opener).run context c).Within c.ahead.length := by
  unfold close
  simp only [run_peek_bind]
  split
  · trivial
  · exact expect_within _ _ context c

/-- A name that is read is passed. -/
theorem name_within (e : Expectation) (context : Context σ) (c : Cursor σ) :
    ((name e).run context c).Within c.ahead.length := by
  unfold name
  simp only [run_peek_bind]
  split
  · rename_i h
    simpa [Outcome.Within] using Cursor.length_next_lt h
  · trivial

end Parse

/-! ## phrases -/

namespace Grammar

open Parse Cursor Outcome

/-- Parameters have an answer with eight calls for each token ahead, and one more. -/
theorem parameters_within (opener : σ) (n : Nat) (context : Context σ) (c : Cursor σ)
    (h : 8 * c.ahead.length + 1 ≤ n) :
    ((parameters opener n).run context c).Within (c.ahead.length + 1) := by
  induction n generalizing c with
  | zero => omega
  | succ n ih =>
    have h₁ := length_skipNewlines_le c
    simp only [parameters, run_skipNewlines_bind, run_peek_bind]
    split
    · simp [Outcome.Within]; omega
    · rename_i hk
      have h₂ := length_next_lt hk
      have h₃ := length_skipNewlines_le c.skipNewlines.next
      simp only [run_place_bind, run_advance_bind, run_skipNewlines_bind, run_peek_bind]
      split
      · rename_i hk'
        have h₄ := length_next_lt hk'
        simp only [run_advance_bind]
        exact bind_within (ih _ (by omega)) fun v c' h' => by simp [Outcome.Within]; omega
      · simp [Outcome.Within]; omega
      · trivial
      · trivial
    · trivial
    · trivial

variable [Location σ]

mutual

/-- So has an expression, which passes a token if it has a value. -/
theorem expression_within (floor : Nat) : ∀ (n : Nat) (context : Context σ) (c : Cursor σ),
    8 * c.ahead.length + 4 ≤ n → ((expression floor n).run context c).Within c.ahead.length
  | 0, _, _, h => by omega
  | n + 1, context, c, h => by
    simp only [expression]
    refine bind_within (operand_within n context c (by omega)) fun left c' h' => ?_
    exact (operators_within floor left n context c' (by omega)).weaken (by omega)

/-- Operators may be none; each passes its token before the operand behind it is read. -/
theorem operators_within (floor : Nat) (left : Expr σ) :
    ∀ (n : Nat) (context : Context σ) (c : Cursor σ), 8 * c.ahead.length + 1 ≤ n →
      ((operators floor left n).run context c).Within (c.ahead.length + 1)
  | 0, _, _, h => by omega
  | n + 1, context, c, h => by
    simp only [operators, run_peek_bind]
    split
    · rename_i op hop
      obtain ⟨k, hk, -⟩ := Option.bind_eq_some_iff.1 hop
      have h₁ := length_next_lt hk
      have h₂ := length_skipNewlines_le c.next
      split
      · simp [Outcome.Within]
      · simp only [run_advance_bind, run_skipNewlines_bind]
        refine bind_within (expression_within _ n context _ (by omega)) fun right c' h' => ?_
        exact (operators_within floor _ n context c' (by omega)).weaken (by omega)
    · simp [Outcome.Within]

/-- A sign is passed before the operand it stands for; else this is a primary expression. -/
theorem operand_within : ∀ (n : Nat) (context : Context σ) (c : Cursor σ),
    8 * c.ahead.length + 3 ≤ n → ((operand n).run context c).Within c.ahead.length
  | 0, _, _, h => by omega
  | n + 1, context, c, h => by
    simp only [operand, run_place_bind, run_peek_bind]
    split
    · rename_i op hop
      obtain ⟨k, hk, -⟩ := Option.bind_eq_some_iff.1 hop
      have h₁ := length_next_lt hk
      simp only [run_advance_bind]
      refine bind_within (operand_within n context c.next (by omega)) fun inner c' h' => ?_
      simp [Outcome.Within]; omega
    · refine bind_within (primary_within n context c (by omega)) fun inner c' h' => ?_
      exact (suffixes_within inner n context c' (by omega)).weaken (by omega)

/-- Suffixes may be none; each passes a dot or a bracket first. -/
theorem suffixes_within (target : Expr σ) : ∀ (n : Nat) (context : Context σ) (c : Cursor σ),
    8 * c.ahead.length + 1 ≤ n →
      ((suffixes target n).run context c).Within (c.ahead.length + 1)
  | 0, _, _, h => by omega
  | n + 1, context, c, h => by
    simp only [suffixes, run_peek_bind]
    split
    · rename_i hk
      have h₁ := length_next_lt hk
      simp only [run_advance_bind]
      refine bind_within (name_within _ context _) fun callee c₂ h₂ => ?_
      refine bind_within (optionalArguments_within n context c₂ (by omega)) fun args c₃ h₃ => ?_
      refine bind_within (optionalLambda_within n context c₃ (by omega)) fun lambda c₄ h₄ => ?_
      simp only [run_since_bind]
      exact (suffixes_within _ n context c₄ (by omega)).weaken (by omega)
    · rename_i hk
      have h₁ := length_next_lt hk
      simp only [run_touching_bind]
      split
      · simp only [run_place_bind, run_advance_bind]
        refine bind_within (elements_within _ n context _ (by omega)) fun keys c₂ h₂ => ?_
        refine bind_within (close_within _ _ context c₂) fun closer c₃ h₃ => ?_
        split
        · trivial
        · exact (suffixes_within _ n context c₃ (by omega)).weaken (by omega)
      · simp [Outcome.Within]
    · simp [Outcome.Within]

/-- A primary expression has a token of its own. -/
theorem primary_within : ∀ (n : Nat) (context : Context σ) (c : Cursor σ),
    8 * c.ahead.length + 2 ≤ n → ((primary n).run context c).Within c.ahead.length
  | 0, _, _, h => by omega
  | n + 1, context, c, h => by
    simp only [primary, run_place_bind, run_peek_bind]
    split
    · rename_i hk
      simpa [Outcome.Within] using length_next_lt hk
    · rename_i hk
      simpa [Outcome.Within] using length_next_lt hk
    · exact callOrWord_within n context c (by omega)
    · rename_i hk
      have h₁ := length_next_lt hk
      simp only [run_advance_bind]
      refine bind_within (elements_within _ n context _ (by omega)) fun items c₂ h₂ => ?_
      refine bind_within (close_within _ _ context c₂) fun closer c₃ h₃ => ?_
      simp [Outcome.Within]; omega
    · rename_i hk
      have h₁ := length_next_lt hk
      have h₂ := length_skipNewlines_le c.next
      simp only [run_advance_bind, run_skipNewlines_bind]
      refine bind_within (entries_within n context _ (by omega)) fun found c₃ h₃ => ?_
      refine bind_within (close_within _ _ context c₃) fun closer c₄ h₄ => ?_
      simp [Outcome.Within]; omega
    · rename_i hk
      have h₁ := length_next_lt hk
      have h₂ := length_skipNewlines_le c.next
      simp only [run_advance_bind, run_skipNewlines_bind]
      refine bind_within (expression_within _ n context _ (by omega)) fun inner c₃ h₃ => ?_
      have h₄ := length_skipNewlines_le c₃
      simp only [run_skipNewlines_bind, run_peek_bind]
      split
      · trivial
      · refine bind_within (close_within _ _ context _) fun closer c₄ h₅ => ?_
        simp [Outcome.Within]; omega
    · split
      · rename_i value hvalue
        obtain ⟨k, hk, -⟩ := Option.bind_eq_some_iff.1 hvalue
        simpa [Outcome.Within] using length_next_lt hk
      · trivial

/-- Elements may be none; each takes a token, and the others come behind a comma. -/
theorem elements_within (construct : Construct) :
    ∀ (n : Nat) (context : Context σ) (c : Cursor σ), 8 * c.ahead.length + 5 ≤ n →
      ((elements construct n).run context c).Within (c.ahead.length + 1)
  | 0, _, _, h => by omega
  | n + 1, context, c, h => by
    have h₁ := length_skipNewlines_le c
    simp only [elements, run_skipNewlines_bind, run_peek_bind]
    split
    · simp [Outcome.Within]; omega
    · trivial
    · split
      · simp [Outcome.Within]; omega
      · refine bind_within (expression_within _ n context _ (by omega)) fun first c₂ h₂ => ?_
        have h₃ := length_skipNewlines_le c₂
        simp only [run_skipNewlines_bind, run_peek_bind]
        split
        · rename_i hk
          have h₄ := length_next_lt hk
          simp only [run_advance_bind]
          refine bind_within (elements_within _ n context _ (by omega)) fun rest c₃ h₅ => ?_
          simp [Outcome.Within]; omega
        · simp [Outcome.Within]; omega

/-- Entries may be none; each takes a token, and the others come behind a comma. -/
theorem entries_within : ∀ (n : Nat) (context : Context σ) (c : Cursor σ),
    8 * c.ahead.length + 5 ≤ n → ((entries n).run context c).Within (c.ahead.length + 1)
  | 0, _, _, h => by omega
  | n + 1, context, c, h => by
    simp only [entries, run_peek_bind]
    split
    · simp [Outcome.Within]
    · simp [Outcome.Within]
    · trivial
    · refine bind_within (expression_within _ n context c (by omega)) fun key c₂ h₂ => ?_
      have h₃ := length_skipNewlines_le c₂
      simp only [run_skipNewlines_bind]
      refine bind_within (symbol_within _ context _) fun arrow c₃ h₄ => ?_
      have h₅ := length_skipNewlines_le c₃
      simp only [run_skipNewlines_bind]
      refine bind_within (expression_within _ n context _ (by omega)) fun value c₄ h₆ => ?_
      have h₇ := length_skipNewlines_le c₄
      simp only [run_skipNewlines_bind, run_peek_bind]
      split
      · rename_i hk
        have h₈ := length_next_lt hk
        have h₉ := length_skipNewlines_le c₄.skipNewlines.next
        simp only [run_advance_bind, run_skipNewlines_bind]
        refine bind_within (entries_within n context _ (by omega)) fun rest c₅ h₁₀ => ?_
        simp [Outcome.Within]; omega
      · simp [Outcome.Within]; omega

/-- The parenthesis is passed before the arguments are read. -/
theorem arguments_within : ∀ (n : Nat) (context : Context σ) (c : Cursor σ),
    8 * c.ahead.length + 1 ≤ n → ((arguments n).run context c).Within c.ahead.length
  | 0, _, _, h => by omega
  | n + 1, context, c, h => by
    simp only [arguments]
    refine bind_within (symbol_within _ context _) fun opener c₂ h₂ => ?_
    have h₃ := length_skipNewlines_le c₂
    simp only [run_skipNewlines_bind]
    refine bind_within (enclosedArguments_within _ n context _ (by omega)) fun args c₄ h₄ => ?_
    refine bind_within (symbol_within _ context _) fun closer c₅ h₅ => ?_
    simp [Outcome.Within]; omega

/-- Up to the closer, each argument takes a token. -/
theorem enclosedArguments_within (opener : σ) :
    ∀ (n : Nat) (context : Context σ) (c : Cursor σ), 8 * c.ahead.length + 5 ≤ n →
      ((enclosedArguments opener n).run context c).Within (c.ahead.length + 1)
  | 0, _, _, h => by omega
  | n + 1, context, c, h => by
    simp only [enclosedArguments, run_peek_bind]
    split
    · trivial
    · simp [Outcome.Within]
    · trivial
    · refine bind_within (expression_within _ n context c (by omega)) fun first c₂ h₂ => ?_
      have h₃ := length_skipNewlines_le c₂
      simp only [run_skipNewlines_bind, run_peek_bind]
      split
      · trivial
      · simp [Outcome.Within]; omega
      · rename_i hk
        have h₄ := length_next_lt hk
        have h₅ := length_skipNewlines_le c₂.skipNewlines.next
        simp only [run_advance_bind, run_skipNewlines_bind]
        refine bind_within (enclosedArguments_within _ n context _ (by omega)) fun rest c₃ h₆ => ?_
        simp [Outcome.Within]; omega
      · trivial

theorem optionalArguments_within : ∀ (n : Nat) (context : Context σ) (c : Cursor σ),
    8 * c.ahead.length + 2 ≤ n → ((optionalArguments n).run context c).Within (c.ahead.length + 1)
  | 0, _, _, h => by omega
  | n + 1, context, c, h => by
    simp only [optionalArguments, run_peek_bind]
    split
    · exact (arguments_within n context c (by omega)).weaken (by omega)
    · simp [Outcome.Within]

/-- The first argument is an expression, which takes a token. -/
theorem bareArguments_within : ∀ (n : Nat) (context : Context σ) (c : Cursor σ),
    8 * c.ahead.length + 5 ≤ n → ((bareArguments n).run context c).Within c.ahead.length
  | 0, _, _, h => by omega
  | n + 1, context, c, h => by
    simp only [bareArguments]
    refine bind_within (expression_within _ n context c (by omega)) fun first c₂ h₂ => ?_
    refine bind_within (moreBareArguments_within n context c₂ (by omega)) fun rest c₃ h₃ => ?_
    simp [Outcome.Within]; omega

/-- Further arguments come behind a comma. -/
theorem moreBareArguments_within : ∀ (n : Nat) (context : Context σ) (c : Cursor σ),
    8 * c.ahead.length + 1 ≤ n → ((moreBareArguments n).run context c).Within (c.ahead.length + 1)
  | 0, _, _, h => by omega
  | n + 1, context, c, h => by
    simp only [moreBareArguments, run_peek_bind]
    split
    · rename_i hk
      have h₁ := length_next_lt hk
      have h₂ := length_skipNewlines_le c.next
      simp only [run_place_bind, run_advance_bind, run_skipNewlines_bind, run_peek_bind]
      split
      · trivial
      · trivial
      · trivial
      · trivial
      · refine bind_within (expression_within _ n context _ (by omega)) fun first c₂ h₃ => ?_
        refine bind_within (moreBareArguments_within n context c₂ (by omega))
          fun rest c₃ h₄ => ?_
        simp [Outcome.Within]; omega
    · simp [Outcome.Within]

theorem callOrWord_within : ∀ (n : Nat) (context : Context σ) (c : Cursor σ),
    8 * c.ahead.length + 1 ≤ n → ((callOrWord n).run context c).Within c.ahead.length
  | 0, _, _, h => by omega
  | n + 1, context, c, h => by
    simp only [callOrWord]
    refine bind_within (name_within _ context _) fun callee c₂ h₂ => ?_
    simp only [run_peek_bind]
    split
    · exact (callOf_within callee n context c₂ (by omega)).weaken (by omega)
    · simpa [Outcome.Within] using h₂

/-- A call in parentheses passes them. -/
theorem callOf_within (callee : Ident σ) : ∀ (n : Nat) (context : Context σ) (c : Cursor σ),
    8 * c.ahead.length + 2 ≤ n → ((callOf callee n).run context c).Within c.ahead.length
  | 0, _, _, h => by omega
  | n + 1, context, c, h => by
    simp only [callOf]
    refine bind_within (arguments_within n context c (by omega)) fun args c₂ h₂ => ?_
    refine bind_within (optionalLambda_within n context c₂ (by omega)) fun lambda c₃ h₃ => ?_
    simp [Outcome.Within]; omega

theorem optionalLambda_within : ∀ (n : Nat) (context : Context σ) (c : Cursor σ),
    8 * c.ahead.length + 2 ≤ n → ((optionalLambda n).run context c).Within (c.ahead.length + 1)
  | 0, _, _, h => by omega
  | n + 1, context, c, h => by
    simp only [optionalLambda, run_peek_bind]
    split
    · refine bind_within (lambda_within n context c (by omega)) fun found c₂ h₂ => ?_
      simp [Outcome.Within]; omega
    · refine bind_within (lambda_within n context c (by omega)) fun found c₂ h₂ => ?_
      simp [Outcome.Within]; omega
    · simp [Outcome.Within]

/-- A lambda passes its bar. -/
theorem lambda_within : ∀ (n : Nat) (context : Context σ) (c : Cursor σ),
    8 * c.ahead.length + 1 ≤ n → ((lambda n).run context c).Within c.ahead.length
  | 0, _, _, h => by omega
  | n + 1, context, c, h => by
    simp only [lambda, run_place_bind, run_peek_bind]
    split
    · rename_i hk
      have h₁ := length_next_lt hk
      simp only [run_advance_bind]
      exact (lambdaBody_within _ _ n context _ (by omega)).weaken (by omega)
    · rename_i hk
      have h₁ := length_next_lt hk
      simp only [run_advance_bind]
      refine bind_within (parameters_within _ n context _ (by omega)) fun params c₂ h₂ => ?_
      refine bind_within (symbol_within _ context _) fun closer c₃ h₃ => ?_
      exact (lambdaBody_within _ _ n context _ (by omega)).weaken (by omega)
    · trivial

theorem lambdaBody_within (opener : σ) (params : List (Ident σ)) :
    ∀ (n : Nat) (context : Context σ) (c : Cursor σ), 8 * c.ahead.length + 2 ≤ n →
      ((lambdaBody opener params n).run context c).Within c.ahead.length
  | 0, _, _, h => by omega
  | n + 1, context, c, h => by
    have h₁ := length_skipNewlines_le c
    simp only [lambdaBody, run_skipNewlines_bind]
    refine bind_within (block_within _ n context _ (by omega)) fun body c₂ h₂ => ?_
    simp [Outcome.Within]; omega

/-- A block passes its brace. -/
theorem block_within (construct : Construct) :
    ∀ (n : Nat) (context : Context σ) (c : Cursor σ), 8 * c.ahead.length + 1 ≤ n →
      ((block construct n).run context c).Within c.ahead.length
  | 0, _, _, h => by omega
  | n + 1, context, c, h => by
    simp only [block]
    refine bind_within (symbol_within _ context _) fun opener c₂ h₂ => ?_
    refine bind_within (statements_within n context c₂ (by omega)) fun stmts c₃ h₃ => ?_
    refine bind_within (close_within _ _ context c₃) fun closer c₄ h₄ => ?_
    simp [Outcome.Within]; omega

/-- Statements may be none; here the chain of calls down to `primary` is longest. -/
theorem statements_within : ∀ (n : Nat) (context : Context σ) (c : Cursor σ),
    8 * c.ahead.length + 7 ≤ n → ((statements n).run context c).Within (c.ahead.length + 1)
  | 0, _, _, h => by omega
  | n + 1, context, c, h => by
    have h₁ := length_skipSeparators_le c
    simp only [statements, run_skipSeparators_bind, run_peek_bind]
    split
    · simp [Outcome.Within]; omega
    · simp [Outcome.Within]; omega
    · refine bind_within (statement_within n context _ (by omega)) fun first c₂ h₂ => ?_
      simp only [run_peek_bind]
      split
      · trivial
      · refine bind_within (statements_within n context c₂ (by omega)) fun rest c₃ h₃ => ?_
        simp [Outcome.Within]; omega

/-- A statement has a token of its own. -/
theorem statement_within : ∀ (n : Nat) (context : Context σ) (c : Cursor σ),
    8 * c.ahead.length + 6 ≤ n → ((statement n).run context c).Within c.ahead.length
  | 0, _, _, h => by omega
  | n + 1, context, c, h => by
    simp only [statement, run_peek_bind]
    split
    · exact conditional_within _ n context c (by omega)
    · exact conditional_within _ n context c (by omega)
    · trivial
    · refine bind_within (callable_within n context c (by omega)) fun found c₂ h₂ => ?_
      split
      · simpa [Outcome.Within] using h₂
      · exact (valueStatement_within _ n context c₂ (by omega)).weaken (by omega)
    · refine bind_within (expression_within _ n context c (by omega)) fun expr c₂ h₂ => ?_
      exact (valueStatement_within _ n context c₂ (by omega)).weaken (by omega)

theorem valueStatement_within (expr : Expr σ) :
    ∀ (n : Nat) (context : Context σ) (c : Cursor σ), 8 * c.ahead.length + 1 ≤ n →
      ((valueStatement expr n).run context c).Within (c.ahead.length + 1)
  | 0, _, _, h => by omega
  | n + 1, context, c, h => by
    simp only [valueStatement, run_peek_bind]
    split
    · rename_i hk
      have h₁ := length_next_lt hk
      have h₂ := length_skipNewlines_le c.next
      split
      · simp only [run_advance_bind, run_skipNewlines_bind]
        refine bind_within (expression_within _ n context _ (by omega)) fun value c₃ h₃ => ?_
        simp [Outcome.Within]; omega
      · trivial
    · simp [Outcome.Within]

/-- A conditional passes its keyword. -/
theorem conditional_within (sense : Sense) :
    ∀ (n : Nat) (context : Context σ) (c : Cursor σ), 8 * c.ahead.length + 5 ≤ n →
      ((conditional sense n).run context c).Within c.ahead.length
  | 0, _, _, h => by omega
  | n + 1, context, c, h => by
    have h₁ := length_next_le c
    simp only [conditional, run_place_bind, run_advance_bind]
    refine bind_within (expression_within _ n context _ (by omega)) fun condition c₂ h₂ => ?_
    refine bind_within (block_within _ n context c₂ (by omega)) fun thenBranch c₃ h₃ => ?_
    refine bind_within (alternative_within _ n context c₃ (by omega)) fun elseBranch c₄ h₄ => ?_
    simp [Outcome.Within]; omega

/-- There may be no alternative; else `elsif` or `else` is passed. -/
theorem alternative_within (sense : Sense) :
    ∀ (n : Nat) (context : Context σ) (c : Cursor σ), 8 * c.ahead.length + 6 ≤ n →
      ((alternative sense n).run context c).Within (c.ahead.length + 1)
  | 0, _, _, h => by omega
  | n + 1, context, c, h => by
    have h₁ := length_skipNewlines_le c
    simp only [alternative, run_peekPastNewlines_bind]
    split
    · simp only [run_skipNewlines_bind]
      refine bind_within (conditional_within _ n context _ (by omega)) fun nested c₂ h₂ => ?_
      simp [Outcome.Within]; omega
    · have h₂ := length_next_le c.skipNewlines
      simp only [run_skipNewlines_bind, run_advance_bind]
      refine bind_within (block_within _ n context _ (by omega)) fun body c₃ h₃ => ?_
      simp [Outcome.Within]; omega
    · simp [Outcome.Within]

/-- A callable passes its name. -/
theorem callable_within : ∀ (n : Nat) (context : Context σ) (c : Cursor σ),
    8 * c.ahead.length + 1 ≤ n → ((callable n).run context c).Within c.ahead.length
  | 0, _, _, h => by omega
  | n + 1, context, c, h => by
    simp only [callable]
    refine bind_within (name_within _ context _) fun callee c₂ h₂ => ?_
    simp only [run_peek_bind]
    split
    · refine bind_within (callOf_within callee n context c₂ (by omega)) fun call c₃ h₃ => ?_
      refine bind_within (continued_within call n context c₃ (by omega)) fun whole c₄ h₄ => ?_
      simp only [run_peek_bind]
      split <;> (simp [Outcome.Within]; omega)
    · simp only [run_touching_bind]
      split
      · refine bind_within (bareArguments_within n context c₂ (by omega)) fun args c₃ h₃ => ?_
        simp only [run_since_bind, run_takesArguments_bind]
        split
        · simp [Outcome.Within]; omega
        · trivial
      · refine bind_within (continued_within _ n context c₂ (by omega)) fun whole c₃ h₃ => ?_
        simp [Outcome.Within]; omega

theorem continued_within (first : Expr σ) :
    ∀ (n : Nat) (context : Context σ) (c : Cursor σ), 8 * c.ahead.length + 2 ≤ n →
      ((continued first n).run context c).Within (c.ahead.length + 1)
  | 0, _, _, h => by omega
  | n + 1, context, c, h => by
    simp only [continued]
    refine bind_within (suffixes_within first n context c (by omega)) fun left c₂ h₂ => ?_
    exact (operators_within 0 left n context c₂ (by omega)).weaken (by omega)

end

/-- The source unit has an answer with eight calls for each token, and eight more. -/
theorem program_within (n : Nat) (context : Context σ) (c : Cursor σ)
    (h : 8 * c.ahead.length + 8 ≤ n) :
    ((program n).run context c).Within (c.ahead.length + 1) := by
  cases n with
  | zero => omega
  | succ n =>
    simp only [program, run_place_bind]
    refine bind_within (statements_within n context c (by omega)) fun stmts c₂ h₂ => ?_
    simp only [run_peek_bind]
    split
    · split
      · simp [Outcome.Within]; omega
      · simp [Outcome.Within]; omega
    · trivial

end Grammar

end CallGrammar
