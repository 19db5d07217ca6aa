import CallGrammar.Proofs.Bare
import CallGrammar.Proofs.Breaks.Found
import CallGrammar.Proofs.Reading.Continues

/-!
# CallGrammar.Proofs.LineBreaks

Where a line may be broken in brackets that hold no statements: behind an opener, a comma, an
arrow, a bar or a binary operator, and before a closer, a comma or an arrow.  There one line break
more changes nothing of the tree (`Breaking`); anywhere else, as before an operator or a dot, no
source is read that has one (`Reads.breakable`).

The token behind a line break does not touch the one before it, as it may have without.
-/

namespace CallGrammar

variable {calls : StatementCalls} {inside rest : List (Token Span)} {t newline : Token Span}

namespace Breaking

/-- The line break before one token. -/
def single (hnodup : (inside ++ t :: rest).Nodup) (henclosed : Enclosed inside (t :: rest))
    (hbreakable : Breakable inside (some t.kind)) (hnewline : newline.kind = .newline) :
    Breaking Span where
  added := newline
  marked u := decide (u = t)
  touches _ := false
  tokens := inside ++ t :: rest
  added_kind := hnewline
  enclosed front u tail htokens hmarked := by
    obtain rfl := of_decide_eq_true hmarked
    obtain rfl := append_cons_inj_of_nodup hnodup htokens
    obtain rfl := (List.cons.inj (List.append_cancel_left htokens)).2
    exact henclosed
  breakable front u tail htokens hmarked := by
    obtain rfl := of_decide_eq_true hmarked
    obtain rfl := append_cons_inj_of_nodup hnodup htokens
    exact hbreakable

/-- One line break put before one token. -/
theorem put_tokens_single (hnodup : (inside ++ t :: rest).Nodup)
    (henclosed : Enclosed inside (t :: rest)) (hbreakable : Breakable inside (some t.kind))
    (hnewline : newline.kind = .newline) :
    (single hnodup henclosed hbreakable hnewline).put (inside ++ t :: rest)
      = inside ++ newline :: Token.retouch false (t :: rest) := by
  have hput := Insertion.put_of_single
    (w := (single hnodup henclosed hbreakable hnewline).toInsertion) hnodup
    (decide_eq_true rfl) fun _ => of_decide_eq_true
  have hplace : (single hnodup henclosed hbreakable hnewline).place t = ⟨t.kind, t.span, false⟩ := by
    simp [Insertion.place, single]
  rwa [hplace] at hput

end Breaking

/-- A line broken where it may be leaves the tree as it was. -/
theorem parse_of_breakable {source edited : String} {p : Program Span}
    (h : parse calls source = .ok p)
    (hsource : Token.significant (Token.ofText source) = inside ++ rest)
    (henclosed : Enclosed inside rest) (hnewline : newline.kind = .newline)
    (hedited : (Token.significant (Token.ofText edited)).map Token.word
      = (inside ++ newline :: Token.retouch false rest).map Token.word)
    (hbreakable : Breakable inside (headKind rest)) :
    ∃ q, parse calls edited = .ok q ∧ q.shape = p.shape := by
  obtain ⟨t, rest, rfl⟩ := henclosed.exists_cons
  have hnodup := (Token.sorted_significant source).nodup
  have hreads := reads_of_parse h
  rw [hsource] at hnodup hreads
  rw [headKind_cons] at hbreakable
  have hput : Reads _ .program ((Breaking.single hnodup henclosed hbreakable hnewline).put
      (inside ++ t :: rest)) [] p := Breaking.reads_program hreads
  rw [Breaking.put_tokens_single] at hput
  exact Parser.exists_program_of_reads (q := Parser.ofSource calls edited) hput rfl rfl hedited

/-- A source with a line broken elsewhere is refused. -/
theorem breakable_of_parse {edited : String} {p : Program Span}
    (h : parse calls edited = .ok p) (henclosed : Enclosed inside rest)
    (hnewline : newline.kind = .newline)
    (hedited : (Token.significant (Token.ofText edited)).map Token.word
      = (inside ++ newline :: Token.retouch false rest).map Token.word) :
    Breakable inside (headKind rest) := by
  let written : Parser Span := ⟨(Parser.ofSource calls edited).context,
    .start (inside ++ newline :: Token.retouch false rest)⟩
  obtain ⟨v, hv, -⟩ := Parser.exists_program_of_words (p := Parser.ofSource calls edited)
    (q := written) rfl rfl rfl hedited.symm h
  have hreads : Reads written.context .program _ [] v := Parser.reads_of_program hv
  have hretouched : Enclosed inside (Token.retouch false rest) :=
    henclosed.of_kinds (by cases rest <;> rfl)
  have hbreakable := hreads.breakable hnewline hretouched
  rwa [Token.headKind_retouch] at hbreakable

/-- **Line breaks in brackets**: let a source be accepted, and put a line break between two
tokens of it right in brackets that hold no statements.  It is accepted again, with a tree that
differs in its spans only, where a line may be broken behind the first of the tokens or before the
second, and refused anywhere else. -/
theorem line_break_iff_of_parse {source edited : String} {p : Program Span}
    (h : parse calls source = .ok p)
    (hsource : Token.significant (Token.ofText source) = inside ++ rest)
    (henclosed : Enclosed inside rest) (hnewline : newline.kind = .newline)
    (hedited : (Token.significant (Token.ofText edited)).map Token.word
      = (inside ++ newline :: Token.retouch false rest).map Token.word) :
    (Breakable inside (headKind rest) ↔ ∃ q, parse calls edited = .ok q ∧ q.shape = p.shape) ∧
      (¬ Breakable inside (headKind rest) ↔ ∃ e, parse calls edited = .error e) := by
  have hrefused (q : Program Span) (hq : parse calls edited = .ok q) :
      Breakable inside (headKind rest) := breakable_of_parse hq henclosed hnewline hedited
  have haccepted := parse_of_breakable h hsource henclosed hnewline hedited
  refine ⟨⟨haccepted, fun ⟨q, hq, _⟩ => hrefused q hq⟩, fun hnot => ?_, fun ⟨e, he⟩ hyes => ?_⟩
  · cases hq : parse calls edited with
    | ok q => exact absurd (hrefused q hq) hnot
    | error e => exact ⟨e, rfl⟩
  · obtain ⟨q, hq, -⟩ := haccepted hyes
    rw [he] at hq
    cases hq

/-- A sum in parentheses, broken behind its operator and before it. -/
theorem line_break_iff_of_parse_sum : ∃ p q e,
    parse .default "(1+2)" = .ok p ∧ parse .default "(1+\n2)" = .ok q ∧ q.shape = p.shape ∧
    parse .default "(1\n+2)" = .error e := by
  have hok : (parse .default "(1+2)").isOk = true := by decide +kernel
  obtain ⟨p, hp⟩ := exists_of_isOk hok
  let opener : Token Span := ⟨.symbol .openParen, ⟨0, 1⟩, false⟩
  let left : Token Span := ⟨.integer "1", ⟨1, 2⟩, true⟩
  let plus : Token Span := ⟨.symbol .plus, ⟨2, 3⟩, true⟩
  let right : Token Span := ⟨.integer "2", ⟨3, 4⟩, true⟩
  let closer : Token Span := ⟨.symbol .closeParen, ⟨4, 5⟩, true⟩
  let newline : Token Span := ⟨.newline, ⟨3, 4⟩, true⟩
  have hsource : Token.significant (Token.ofText "(1+2)")
      = [opener, left, plus] ++ [right, closer] := by decide +kernel
  have hsource' : Token.significant (Token.ofText "(1+2)")
      = [opener, left] ++ [plus, right, closer] := hsource
  have hbrackets : Bracketed opener [left, plus, right] closer := .parentheses rfl rfl
  have henclosed : Enclosed ([] ++ opener :: [left, plus]) ([right] ++ closer :: []) :=
    .intro rfl rfl (.cons rfl (.cons rfl .nil)) (.cons rfl .nil) hbrackets
  have henclosed' : Enclosed ([] ++ opener :: [left]) ([plus, right] ++ closer :: []) :=
    .intro rfl rfl (.cons rfl .nil) (.cons rfl (.cons rfl .nil)) hbrackets
  have hbehind : (Token.significant (Token.ofText "(1+\n2)")).map Token.word
      = ([opener, left, plus] ++ newline :: Token.retouch false [right, closer]).map
        Token.word := by decide +kernel
  have hbefore : (Token.significant (Token.ofText "(1\n+2)")).map Token.word
      = ([opener, left] ++ newline :: Token.retouch false [plus, right, closer]).map
        Token.word := by decide +kernel
  have hvalue : EndsValue [opener, left] := ⟨_, rfl, rfl⟩
  have hoperator : Breakable ([opener, left] ++ [plus]) (some right.kind) :=
    .operator rfl hvalue rfl
  obtain ⟨q, hq, hshape⟩ :=
    (line_break_iff_of_parse hp hsource henclosed rfl hbehind).1.1 hoperator
  obtain ⟨e, he⟩ := (line_break_iff_of_parse hp hsource' henclosed' rfl hbefore).2.1
    (not_breakable_of_endsValue hvalue rfl nofun)
  exact ⟨p, q, e, hp, hq, hshape, he⟩

/-- So line breaks in brackets that hold no statements are not all insignificant: one before an
operator is refused. -/
theorem line_break_significant : ¬ ∀ (calls : StatementCalls) (source edited : String)
    (p : Program Span) (inside rest : List (Token Span)) (newline : Token Span),
    parse calls source = .ok p →
    Token.significant (Token.ofText source) = inside ++ rest → Enclosed inside rest →
    (headKind rest = some (.symbol .openBracket) → headTouches rest = false) →
    newline.kind = .newline →
    (Token.significant (Token.ofText edited)).map Token.word
      = (inside ++ newline :: Token.retouch false rest).map Token.word →
    ∃ q, parse calls edited = .ok q ∧ q.shape = p.shape := by
  intro hinsignificant
  have hok : (parse .default "(1+2)").isOk = true := by decide +kernel
  obtain ⟨p, hp⟩ := exists_of_isOk hok
  let opener : Token Span := ⟨.symbol .openParen, ⟨0, 1⟩, false⟩
  let left : Token Span := ⟨.integer "1", ⟨1, 2⟩, true⟩
  let right : List (Token Span) := [⟨.symbol .plus, ⟨2, 3⟩, true⟩, ⟨.integer "2", ⟨3, 4⟩, true⟩]
  let closer : Token Span := ⟨.symbol .closeParen, ⟨4, 5⟩, true⟩
  have hsource : Token.significant (Token.ofText "(1+2)")
      = [opener, left] ++ (right ++ [closer]) := by decide +kernel
  have hbrackets : Bracketed opener ([left] ++ right) closer := .parentheses rfl rfl
  have henclosed : Enclosed ([] ++ opener :: [left]) (right ++ closer :: []) :=
    .intro rfl rfl (.cons rfl .nil) (.cons rfl (.cons rfl .nil)) hbrackets
  obtain ⟨q, hq, -⟩ := hinsignificant .default "(1+2)" "(1\n+2)" p [opener, left]
    (right ++ [closer]) ⟨.newline, ⟨2, 3⟩, true⟩ hp hsource henclosed nofun rfl (by decide +kernel)
  have hrefused : (parse .default "(1\n+2)").isOk = false := by decide +kernel
  rw [hq] at hrefused
  cases hrefused

end CallGrammar
