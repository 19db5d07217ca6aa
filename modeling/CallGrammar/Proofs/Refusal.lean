import CallGrammar.Proofs.Crossing

/-!
# CallGrammar.Proofs.Refusal

What a refusal says about the tokens.  A phrase that is refused has gone past valid
tokens only, and its error is one of these:

1. a stray comma is a comma that was passed or is under the cursor;
2. a list without parentheses starts at a name that takes no such list, and ends
   where the cursor stands;
3. an unexpected token is the one under the cursor, with three exceptions: an access
   without keys is reported at its closer, a bad target at its own place, and where the
   input has ended, a construct that is still open at its opener.

Each step has a lemma here; the phrases follow in `Refusal.Grammar`.
-/

namespace CallGrammar

variable {σ α β : Type}

/-! ## where the cursor has been -/

/-- The symbol that opens a construct. -/
def Construct.opener : Construct → Symbol
  | argumentList | parentheses => .openParen
  | access | array => .openBracket
  | hash | ifBody | elseBody | unlessBody | lambdaBody => .openBrace
  | lambdaParameters => .pipe

namespace Cursor

/-- The token was passed or is under the cursor. -/
def Reached (c : Cursor σ) (t : Token σ) : Prop := t ∈ c.passed ∨ c.ahead.head? = some t

/-- The cursor stands in a construct that was opened at the given place, and all that
was opened since then is closed. -/
def Inside (c : Cursor σ) (construct : Construct) (opener : σ) : Prop :=
  ∃ t inner before, c.passed = inner.reverse ++ t :: before ∧
    t.kind = .symbol construct.opener ∧ t.span = opener ∧ Tidy inner

/-- The construct is the innermost one: the brackets after its opener match, and after the
bar that opens parameters there are only parameters. -/
def Innermost (c : Cursor σ) (construct : Construct) (opener : σ) : Prop :=
  ∃ t inner before, c.passed = inner.reverse ++ t :: before ∧
    t.kind = .symbol construct.opener ∧ t.span = opener ∧ Tidy inner ∧ Balanced inner ∧
    (construct = .lambdaParameters → AllKinds Kind.isParameter inner)

variable {c d e : Cursor σ} {ts : List (Token σ)} {construct : Construct} {opener : σ}

/-- A cursor on a token has reached it. -/
theorem Reached.of_kind? {k : Kind} (h : c.kind? = some k) :
    ∃ t, c.Reached t ∧ t.kind = k ∧ ∀ finish, c.place finish = t.span := by
  obtain ⟨passed, ahead⟩ := c
  cases ahead with
  | nil => cases h
  | cons t ts => exact ⟨t, .inr rfl, Option.some.inj h, fun _ => rfl⟩

/-- The innermost construct is one of those around the cursor. -/
theorem Innermost.inside (h : c.Innermost construct opener) : c.Inside construct opener := by
  obtain ⟨t, inner, before, hpassed, ht, hspan, htidy, -, -⟩ := h
  exact ⟨t, inner, before, hpassed, ht, hspan, htidy⟩

/-- Behind an opener its construct is the innermost. -/
theorem Innermost.of_opener {t : Token σ} (h : c.Passes [t] d)
    (ht : t.kind = .symbol construct.opener) : d.Innermost construct t.span :=
  ⟨t, [], c.passed, h.2, ht, rfl, .nil, .nil, fun _ => .nil⟩

theorem Innermost.next (h : c.kind? = some (.symbol construct.opener)) (finish : σ) :
    c.next.Innermost construct (c.place finish) := by
  obtain ⟨t, ht, htk, -, hplace⟩ := passes_next h
  rw [hplace]
  exact .of_opener ht htk

/-- It stays so behind tokens whose brackets match. -/
theorem Innermost.passes (h : c.Innermost construct opener) (hts : c.Passes ts d)
    (htidy : Tidy ts) (hbalanced : Balanced ts)
    (hparams : construct = .lambdaParameters → AllKinds Kind.isParameter ts) :
    d.Innermost construct opener := by
  obtain ⟨t, inner, before, hpassed, ht, hspan, hinner, hinner', hparams'⟩ := h
  refine ⟨t, inner ++ ts, before, ?_, ht, hspan, hinner.append htidy, hinner'.append hbalanced,
    fun hbar => (hparams' hbar).append (hparams hbar)⟩
  rw [hts.2, hpassed, List.reverse_append, List.append_assoc]

/-- One token that may stand between bars. -/
theorem Innermost.passes_parameter {t : Token σ} (h : c.Innermost construct opener)
    (ht : c.Passes [t] d) (hparam : t.kind.isParameter = true) : d.Innermost construct opener := by
  have hflat : t.kind.isFlat = true := Kind.isFlat_of_isParameter hparam
  exact h.passes ht (.cons hflat .nil) (.cons (Kind.isInner_of_isFlat hflat) .nil)
    fun _ => .cons hparam .nil

theorem Innermost.skipNewlines (h : c.Innermost construct opener) :
    c.skipNewlines.Innermost construct opener := by
  obtain ⟨nl, hnl, hall, -⟩ := c.passes_skipNewlines
  exact h.passes hnl (.newlines hall) (.newlines hall) fun _ => hall.all rfl

theorem kind?_eq_none (h : c.kind? = none) : c.ahead = [] := by
  simpa [kind?] using h

end Cursor

/-! ## refusals -/

variable [Location σ]

/-- The tokens are what may stand before an assignment sign. -/
def IsTarget (context : Context σ) (ts after : List (Token σ)) (target : Expr σ) : Prop :=
  Reads context (.expression 0) ts after target ∨ Reads context .callable ts after (.value target)

/-- What an error says about the cursor where it was found. -/
inductive Refused (context : Context σ) (c : Cursor σ) : ParseError σ → Prop where
  | strayComma {t : Token σ} (ht : c.Reached t) (hk : t.kind = .symbol .comma) :
      Refused context c (.strayComma t.span)
  | needsParentheses {t : Token σ} {name : String} {ts before : List (Token σ)}
      (hpassed : c.passed = ts.reverse ++ t :: before) (ht : t.kind = .name name)
      (hcalls : name ∉ context.calls) (hopens : BeginsWith beginsExpression ts)
      (hparen : headKind ts ≠ some (.symbol .openParen)) :
      Refused context c (.needsParentheses name (through t.span ts))
  | unexpected (expected : Expectation) :
      Refused context c (.unexpected expected c.kind? (c.place context.finish))
  | emptyAccess {opener closer : Token σ} {nl before : List (Token σ)}
      (hpassed : c.passed = closer :: (nl.reverse ++ opener :: before))
      (hopener : opener.kind = .symbol .openBracket) (htouching : opener.touching = true)
      (hnl : Newlines nl) (hcloser : closer.kind = .symbol .closeBracket) :
      Refused context c (.emptyAccess closer.span)
  | unassignable {ts before : List (Token σ)} {target : Expr σ}
      (hpassed : c.passed = ts.reverse ++ before) (htarget : IsTarget context ts c.ahead target)
      (hk : c.kind? = some (.symbol .assign)) (hnot : target.isAssignable = false) :
      Refused context c (.unassignable target.span)
  | unterminated {construct : Construct} {opener : σ} (hinside : c.Innermost construct opener)
      (hend : c.ahead = []) : Refused context c (.unterminated construct opener)

/-- From `c` the cursor went past valid tokens to `d`, where the error was found. -/
structure Refuses (context : Context σ) (c : Cursor σ) (e : ParseError σ) (d : Cursor σ) :
    Prop where
  crosses : c.Crosses d
  refused : Refused context d e

variable {context : Context σ} {c d : Cursor σ} {e : ParseError σ}

/-- The comma under the cursor may be reported as stray. -/
theorem Refused.comma_here (h : c.kind? = some (.symbol .comma)) :
    Refused context c (.strayComma (c.place context.finish)) := by
  obtain ⟨t, hreached, ht, hplace⟩ := Cursor.Reached.of_kind? h
  rw [hplace]
  exact .strayComma hreached ht

/-! ## steps -/

namespace Parse

omit [Location σ] in
/-- An error of two parsers one after the other is of the first, or of the second where the
first ends. -/
theorem bind_failed {p : Parse σ α} {q : α → Parse σ β}
    (h : (p >>= q).run context c = .failed e d) :
    p.run context c = .failed e d ∨
      ∃ u c', p.run context c = .done u c' ∧ (q u).run context c' = .failed e d := by
  rw [run_bind] at h
  cases hp : p.run context c with
  | done u c' => rw [hp] at h; exact .inr ⟨u, c', rfl, h⟩
  | failed e' c' => rw [hp] at h; cases h; exact .inl rfl
  | exhausted => rw [hp] at h; cases h

/-- What is unexpected is reported at the token under the cursor. -/
theorem unexpected_failed {expected : Expectation}
    (h : (unexpected expected : Parse σ α).run context c = .failed e d) :
    Refused context d e := by
  rw [run_unexpected] at h
  cases h
  exact Refused.unexpected expected

theorem strayComma_failed (hk : c.kind? = some (.symbol .comma))
    (h : (strayComma : Parse σ α).run context c = .failed e d) : Refused context d e := by
  rw [run_strayComma] at h
  cases h
  exact Refused.comma_here hk

/-- At the end, the innermost construct is reported. -/
theorem unterminated_failed {construct : Construct} {opener : σ}
    (hinside : c.Innermost construct opener) (hk : c.kind? = none)
    (h : (fail (.unterminated construct opener) : Parse σ α).run context c = .failed e d) :
    Refused context d e := by
  rw [run_fail] at h
  cases h
  exact Refused.unterminated hinside (Cursor.kind?_eq_none hk)

/-- An expected token that is not there is reported as unexpected. -/
theorem expect_failed {kind : Kind} {expected : Expectation}
    (h : (expect kind expected).run context c = .failed e d) : Refused context d e := by
  unfold expect at h
  rw [run_peek_bind] at h
  split at h
  · rw [run_place_bind, run_advance_bind, run_pure] at h
    cases h
  · exact unexpected_failed h

/-- A closer that is not there: the end is reported, or the token in its place. -/
theorem closeAs_failed {construct : Construct} {expected : Expectation} {opener : σ}
    (hinside : c.Innermost construct opener)
    (h : (closeAs construct expected opener).run context c = .failed e d) :
    Refused context d e := by
  unfold closeAs at h
  rw [run_peek_bind] at h
  split at h
  · next hk => exact unterminated_failed hinside hk h
  · exact expect_failed h

theorem close_failed {construct : Construct} {opener : σ}
    (hinside : c.Innermost construct opener)
    (h : (close construct opener).run context c = .failed e d) : Refused context d e := by
  rw [close_eq_closeAs] at h
  exact closeAs_failed hinside h

theorem name_failed {expected : Expectation}
    (h : (name expected).run context c = .failed e d) : Refused context d e := by
  unfold name at h
  rw [run_peek_bind] at h
  split at h
  · rw [run_place_bind, run_advance_bind, run_pure] at h
    cases h
  · exact unexpected_failed h

end Parse

end CallGrammar
