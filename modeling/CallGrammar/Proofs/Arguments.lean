import CallGrammar.Grammar

/-!
# CallGrammar.Proofs.Arguments

Arguments in parentheses are read by a loop of their own.  It looks for the closing
parenthesis, a comma and the end of the input in front of each argument and behind it, and
leaves at three places.  Keys and the elements of arrays are read by another loop, which
leaves a missing closer to the bracket behind it.

The two loops are one reading: `arguments_succ` gives arguments as the list loop reads them
up to a closing parenthesis.  Only what a missing closer is reported as tells them apart.
-/

namespace CallGrammar

variable {σ α β : Type}

/-! ## closers -/

namespace Parse

variable {context : Context σ} {c : Cursor σ} {construct : Construct} {k : Kind}

/-- Go past the closer of a construct that was opened at `opener`, where `expected` is what
may come at its place. -/
def closeAs (construct : Construct) (expected : Expectation) (opener : σ) : Parse σ σ := do
  match ← peek with
  | none => fail (.unterminated construct opener)
  | some _ => expect (.symbol construct.closer) expected

theorem close_eq_closeAs (construct : Construct) (opener : σ) :
    close construct opener = closeAs construct (.symbol construct.closer) opener := rfl

/-- At the end of the tokens the construct is not closed, whatever was expected. -/
theorem run_closeAs_bind_of_none (h : c.kind? = none) (expected : Expectation) (opener : σ)
    (q : σ → Parse σ β) :
    (closeAs construct expected opener >>= q).run context c
      = .failed (.unterminated construct opener) c := by
  rw [run_bind, closeAs, run_peek_bind, h, run_fail]

/-- Before the end, the closer is a token like any other that is expected. -/
theorem run_closeAs_of_some (h : c.kind? = some k) (expected : Expectation) (opener : σ) :
    (closeAs construct expected opener).run context c
      = (expect (.symbol construct.closer) expected).run context c := by
  rw [closeAs, run_peek_bind, h]

/-- The closer ends the list, and its place is the result. -/
theorem run_closeAs_of_eq (h : c.kind? = some (.symbol construct.closer)) (expected : Expectation)
    (opener : σ) :
    (closeAs construct expected opener).run context c
      = .done (c.place context.finish) c.next := by
  rw [run_closeAs_of_some h, run_expect_of_eq h]

/-- Another token than the closer is reported where it stands. -/
theorem run_closeAs_of_ne (h : c.kind? = some k) (hk : k ≠ .symbol construct.closer)
    (expected : Expectation) (opener : σ) :
    (closeAs construct expected opener).run context c
      = .failed (.unexpected expected (some k) (c.place context.finish)) c := by
  have hne : c.kind? ≠ some (.symbol construct.closer) := by simpa [h] using hk
  rw [run_closeAs_of_some h, run_expect_of_ne hne, h]

/-- On a closing parenthesis, nothing tells its two readings apart. -/
theorem run_closeParen_bind (h : c.kind? = some (.symbol .closeParen)) (opener : σ)
    (q : Parse σ β) :
    (symbol .closeParen >>= fun _ => q).run context c
      = (closeAs .argumentList .commaOrParen opener >>= fun _ => q).run context c := by
  have hcloser : c.kind? = some (.symbol Construct.argumentList.closer) := h
  rw [run_bind, run_bind, symbol, run_expect_of_eq h, run_closeAs_of_eq hcloser]

end Parse

/-! ## the loop of arguments -/

namespace Grammar

open Parse

variable [Location σ] {context : Context σ}

/-- Up to the closing parenthesis the two loops end alike, whatever is read behind it. -/
theorem run_enclosedArguments_bind (opener : σ) (n : Nat) (q : List (Expr σ) → Parse σ β)
    (c : Cursor σ) :
    (enclosedArguments opener n >>= fun args => symbol .closeParen >>= fun _ => q args).run context
        c.skipNewlines
      = (elements .argumentList n >>= fun args => closeAs .argumentList .commaOrParen opener >>=
          fun _ => q args).run context c := by
  induction n generalizing c q with
  | zero => rfl
  | succ n ih =>
    simp only [enclosedArguments, elements, run_bind_assoc, run_skipNewlines_bind, run_peek_bind]
    generalize c.skipNewlines = c
    cases hk : c.kind? with
    | none => simp only [run_fail_bind, run_pure_bind, run_closeAs_bind_of_none hk]
    | some k =>
      by_cases hparen : k = .symbol .closeParen
      · subst hparen
        exact run_closeParen_bind hk opener _
      by_cases hcomma : k = .symbol .comma
      · subst hcomma
        rfl
      have hcloser : k ≠ .symbol Construct.argumentList.closer := hparen
      simp only [if_neg hcloser, run_bind_assoc]
      refine run_bind_congr fun first c' _ => ?_
      simp only [run_bind_assoc, run_skipNewlines_bind, run_peek_bind]
      -- behind an argument, the loop looks for the closer at once, the other one goes on
      generalize c'.skipNewlines = d
      cases hk' : d.kind? with
      | none => simp only [run_fail_bind, run_pure_bind, run_closeAs_bind_of_none hk']
      | some k' =>
        by_cases hparen' : k' = .symbol .closeParen
        · subst hparen'
          exact run_closeParen_bind hk' opener _
        by_cases hcomma' : k' = .symbol .comma
        · subst hcomma'
          simp only [run_bind_assoc, run_advance_bind, run_skipNewlines_bind]
          exact ih (fun rest => q (first :: rest)) d.next
        · have hcloser' : k' ≠ .symbol Construct.argumentList.closer := hparen'
          have hsome : some k' ≠ some (.symbol .comma) := by simpa using hcomma'
          simp only [run_unexpected_bind, run_pure_bind]
          rw [run_bind, run_closeAs_of_ne hk' hcloser', hk']

/-- Arguments are what the list loop reads between parentheses. -/
theorem arguments_succ (n : Nat) :
    (arguments (n + 1) : Parse σ (List (Expr σ))) = (do
      let opener ← symbol .openParen
      let args ← elements .argumentList n
      let _ ← closeAs .argumentList .commaOrParen opener
      pure args) := by
  refine Parse.ext (funext fun context => funext fun c => ?_)
  exact run_bind_congr fun opener c' _ => run_enclosedArguments_bind opener n pure c'

end Grammar

end CallGrammar
