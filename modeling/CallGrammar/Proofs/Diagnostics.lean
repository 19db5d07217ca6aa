import CallGrammar.Proofs.Selection
import CallGrammar.Proofs.Session
import CallGrammar.Report

/-!
# CallGrammar.Proofs.Diagnostics

Every error points at real input of the right kind.  Whatever is read from a source, and
in whatever order, an error has the place of tokens of the source that are what it
complains of (`ParseError.Points`), or of the end of the source.  So its span lies within
the source, between characters, and the label of the report shows something of it.

Where a construct is reported as never closed, it is the innermost one: what was opened
after it is closed.
-/

namespace CallGrammar

variable {context : Context Span} {c : Cursor Span} {e : ParseError Span}

/-! ## what errors point at -/

/-- Where each error points, with the cursor where it was found:

1. a stray comma, at a comma that was passed or is under the cursor;
2. a list without parentheses, from a name that takes no such list, and that no
   parenthesis follows, to the end of the last token before the cursor;
3. an unexpected token, at the token under the cursor or the end of the input;
4. an access without keys, at its closer;
5. a bad target, at what stands before the assignment sign under the cursor: tokens that
   are read as that target on their own;
6. a construct that is never closed, at its opener, with the cursor at the end. -/
def ParseError.Points (context : Context Span) (c : Cursor Span) : ParseError Span → Prop
  | strayComma s => ∃ t, c.Reached t ∧ t.kind = .symbol .comma ∧ s = t.span
  | needsParentheses name s => name ∉ context.calls ∧ ∃ before t next us,
    c.passed.reverse = before ++ t :: next :: us ∧ Covers s (t :: next :: us) ∧
    t.kind = .name name ∧ next.kind ≠ .symbol .openParen
  | unexpected _ found s => found = c.kind? ∧
    ((∃ t, c.ahead.head? = some t ∧ s = t.span) ∨ (c.ahead = [] ∧ s = context.finish))
  | emptyAccess s => ∃ before opener nl closer,
    c.passed.reverse = before ++ opener :: (nl ++ [closer]) ∧
    opener.kind = .symbol .openBracket ∧ opener.touching = true ∧ Newlines nl ∧
    closer.kind = .symbol .closeBracket ∧ s = closer.span
  | unassignable s => c.kind? = some (.symbol .assign) ∧ ∃ before us target,
    c.passed.reverse = before ++ us ∧ Covers s us ∧ target.isAssignable = false ∧
    s = target.span ∧
    Parser.Gives ⟨context, .start (Token.retouch false us)⟩ (.expr target)
  | unterminated construct s => c.ahead = [] ∧ c.Inside construct s

/-- What may stand before an assignment sign is an expression on exactly its tokens. -/
theorem IsTarget.planted {ts after : List (Token Span)} {target : Expr Span}
    (h : IsTarget context ts after target) (hs : Sorted ts) :
    Planted context ts (.expr target) := by
  obtain h | h := h
  · exact h.plants hs
  · exact h.plants hs

/-- What was passed last is in the vector. -/
theorem Cursor.infix_tokens {σ : Type} {c : Cursor σ} {before us : List (Token σ)}
    (h : c.passed.reverse = before ++ us) : us <:+: c.tokens :=
  ⟨before, c.ahead, by rw [tokens, h]⟩

theorem Cursor.Reached.mem_tokens {σ : Type} {c : Cursor σ} {t : Token σ} (h : c.Reached t) :
    t ∈ c.tokens := by
  obtain h | h := h
  · exact List.mem_append_left _ (List.mem_reverse.2 h)
  · exact List.mem_append_right _ (List.mem_of_head? h)

/-- A refusal points where it should. -/
theorem Refused.points (h : Refused context c e) (hs : Sorted c.tokens) : e.Points context c := by
  cases h with
  | @strayComma t ht hk => exact ⟨t, ht, hk, rfl⟩
  | @needsParentheses t name ts before hpassed ht hcalls hopens hparen =>
    obtain ⟨next, us, rfl, -⟩ := hopens
    have htokens : c.passed.reverse = before.reverse ++ t :: next :: us := by
      rw [hpassed]
      simp
    have hrun : Sorted (t :: next :: us) := hs.of_sublist (Cursor.infix_tokens htokens).sublist
    have hcovers := (Covers.single t).through hrun (List.cons_ne_nil next us)
    exact ⟨hcalls, before.reverse, t, next, us, htokens, hcovers, ht,
      fun hnext => hparen (congrArg some hnext)⟩
  | unexpected expected =>
    refine ⟨rfl, ?_⟩
    unfold Cursor.place
    cases hahead : c.ahead with
    | nil => exact .inr ⟨rfl, rfl⟩
    | cons t ts => exact .inl ⟨t, rfl, rfl⟩
  | @emptyAccess opener closer nl before hpassed hopener htouching hnl hcloser =>
    refine ⟨before.reverse, opener, nl, closer, ?_, hopener, htouching, hnl, hcloser, rfl⟩
    rw [hpassed]
    simp
  | @unassignable ts before target hpassed htarget hk hnot =>
    have htokens : c.passed.reverse = before.reverse ++ ts := by
      rw [hpassed]
      simp
    have hrun : Sorted ts := hs.of_sublist (Cursor.infix_tokens htokens).sublist
    have hplanted := htarget.planted hrun
    exact ⟨hk, before.reverse, ts, target, htokens, hplanted.covers, hnot, rfl,
      hplanted.whole.gives hrun rfl nofun⟩
  | unterminated hinside hend => exact ⟨hend, hinside.inside⟩

/-! ## runs of tokens -/

/-- Errors have the place of some tokens in a row, or of the end of the input. -/
theorem ParseError.Points.covers (h : e.Points context c) :
    e.span = context.finish ∨ ∃ us, us <:+: c.tokens ∧ Covers e.span us := by
  have hone : ∀ t, t ∈ c.tokens → ∃ us, us <:+: c.tokens ∧ Covers t.span us := by
    intro t ht
    obtain ⟨before, after, htokens⟩ := List.append_of_mem ht
    exact ⟨[t], ⟨before, after, by rw [htokens]; simp⟩, .single t⟩
  cases e with
  | strayComma s =>
    obtain ⟨t, ht, -, rfl⟩ := h
    exact .inr (hone t ht.mem_tokens)
  | needsParentheses name s =>
    obtain ⟨-, before, t, next, us, htokens, hcovers, -⟩ := h
    exact .inr ⟨_, Cursor.infix_tokens htokens, hcovers⟩
  | unexpected expected found s =>
    obtain ⟨-, ⟨t, ht, rfl⟩ | ⟨-, rfl⟩⟩ := h
    · exact .inr (hone t (List.mem_append_right _ (List.mem_of_head? ht)))
    · exact .inl rfl
  | emptyAccess s =>
    obtain ⟨before, opener, nl, closer, htokens, -, -, -, -, rfl⟩ := h
    exact .inr (hone closer ((Cursor.infix_tokens htokens).subset (by simp)))
  | unassignable s =>
    obtain ⟨-, before, us, target, htokens, hcovers, -⟩ := h
    exact .inr ⟨us, Cursor.infix_tokens htokens, hcovers⟩
  | unterminated construct s =>
    obtain ⟨-, t, inner, before, hpassed, -, rfl, -⟩ := h
    exact .inr (hone t (Cursor.Reached.mem_tokens (.inl (by rw [hpassed]; simp))))

/-! ## places in the source -/

/-- The span lies within the source, and both its ends are between characters. -/
structure Span.Within (s : Span) (source : String) : Prop where
  ordered : s.start ≤ s.stop
  bounded : s.stop ≤ source.utf8ByteSize
  start_valid : String.Pos.Raw.IsValid source ⟨s.start⟩
  stop_valid : String.Pos.Raw.IsValid source ⟨s.stop⟩

/-- The characters before some others end between characters. -/
theorem isValid_byteLength {source : String} {front back : List Char}
    (h : source.toList = front ++ back) :
    String.Pos.Raw.IsValid source ⟨Token.byteLength front⟩ := by
  refine String.Pos.Raw.isValid_iff_exists_append.2
    ⟨String.ofList front, String.ofList back, ?_, ?_⟩
  · rw [← String.ofList_append, ← h, String.ofList_toList]
  · rw [Token.byteLength_eq]
    rfl

/-- What a span selects begins and ends at characters of the source. -/
theorem Span.Selects.isValid {s : Span} {source : String} (h : s.Selects 0 source.toList) :
    String.Pos.Raw.IsValid source ⟨s.start⟩ ∧ String.Pos.Raw.IsValid source ⟨s.stop⟩ := by
  obtain ⟨front, piece, back, hsource, rfl⟩ := h
  rw [Nat.zero_add, Nat.zero_add]
  exact ⟨isValid_byteLength hsource, isValid_byteLength (hsource.trans (List.append_assoc ..).symm)⟩

/-- The end of the source. -/
theorem Span.within_end (source : String) :
    Span.Within ⟨source.utf8ByteSize, source.utf8ByteSize⟩ source := by
  have hvalid := isValid_byteLength (List.append_nil source.toList).symm
  rw [Token.byteLength_toList] at hvalid
  exact ⟨Nat.le_refl _, Nat.le_refl _, hvalid, hvalid⟩

/-- Some tokens of the source in a row. -/
theorem Covers.within {s : Span} {us : List (Token Span)} {source : String} (h : Covers s us)
    (hus : us <:+: Token.significant (Token.ofText source)) : s.Within source := by
  have hsorted : Sorted us := (Token.sorted_significant source).of_sublist hus.sublist
  have hnonempty := h.nonempty hsorted
  obtain ⟨t, u, ht, hu, rfl⟩ := h
  have ht := hus.subset (List.mem_of_head? ht)
  have hu := hus.subset (List.mem_of_getLast? hu)
  exact ⟨Nat.le_of_lt hnonempty, Token.stop_le_of_mem_significant hu,
    (Token.selects_of_mem_significant ht).isValid.1,
    (Token.selects_of_mem_significant hu).isValid.2⟩

/-! ## labels -/

/-- The label lies within the source, and covers some of it if there is any. -/
structure Report.Shows (range : Nat × Nat) (source : String) : Prop where
  ordered : range.1 ≤ range.2
  bounded : range.2 ≤ source.utf8ByteSize
  empty : range.1 = range.2 → source = ""

/-- The label of a span that does not end after the source. -/
theorem Report.shows_labelRange {s : Span} {source : String}
    (h : s.stop ≤ source.utf8ByteSize) :
    Shows (labelRange s source.utf8ByteSize) source := by
  unfold labelRange
  split
  · next hnonempty =>
    have hlt : s.start < s.stop := by simpa [Span.isEmpty] using hnonempty
    exact ⟨Nat.le_of_lt hlt, h, fun heq => absurd heq (Nat.ne_of_lt hlt)⟩
  · split
    · next hlt =>
      exact ⟨Nat.le_succ _, hlt, fun heq => absurd heq (Nat.ne_of_lt (Nat.lt_succ_self _))⟩
    · refine ⟨Nat.sub_le _ _, Nat.le_refl _, fun heq => ?_⟩
      change source.utf8ByteSize - 1 = source.utf8ByteSize at heq
      exact String.utf8ByteSize_eq_zero_iff.1 (by omega)

/-! ## sessions -/

/-- **Diagnostics**: whatever is read from a source, an error points at tokens of the source
that are what it complains of, within the source and between characters, and the report
has a label for it. -/
theorem points_of_answer {calls : StatementCalls} {source : String} {requests : List Request}
    {request : Request} {e : ParseError Span} {p : Parser Span}
    (h : ((Parser.ofSource calls source).session requests).answer request = (some e, p)) :
    p.cursor.tokens = Token.significant (Token.ofText source) ∧
    e.Points ⟨⟨source.utf8ByteSize, source.utf8ByteSize⟩, calls⟩ p.cursor ∧
    e.span.Within source ∧ Report.Shows (Report.labelRange e.span source.utf8ByteSize) source := by
  obtain ⟨hcontext, hsession⟩ := (Parser.ofSource calls source).crosses_session requests
  have hrefuses := Parser.refuses_answer (congrArg Prod.fst h)
  rw [hcontext, h] at hrefuses
  have htokens := (hsession.trans hrefuses.crosses).of_start.1
  have hpoints := hrefuses.refused.points (htokens ▸ Token.sorted_significant source)
  have hwithin : e.span.Within source := by
    obtain hend | ⟨us, hus, hcovers⟩ := hpoints.covers
    · exact hend ▸ Span.within_end source
    · exact hcovers.within (htokens ▸ hus)
  exact ⟨htokens, hpoints, hwithin, Report.shows_labelRange hwithin.bounded⟩

/-- A call of a method on a string, before an assignment sign, after a line that was read. -/
theorem points_of_answer_target : ∃ p,
    ((Parser.ofSource .default "$x\n'é'.f = 1").session [.expression]).answer .program
      = (some (.unassignable ⟨3, 9⟩), p) ∧
    p.cursor.tokens = Token.significant (Token.ofText "$x\n'é'.f = 1") ∧
    (ParseError.unassignable ⟨3, 9⟩).Points
      ⟨⟨"$x\n'é'.f = 1".utf8ByteSize, "$x\n'é'.f = 1".utf8ByteSize⟩, .default⟩ p.cursor ∧
    Span.Within ⟨3, 9⟩ "$x\n'é'.f = 1" ∧
    Report.Shows (Report.labelRange ⟨3, 9⟩ "$x\n'é'.f = 1".utf8ByteSize) "$x\n'é'.f = 1" := by
  have hfirst : (((Parser.ofSource .default "$x\n'é'.f = 1").session [.expression]).answer
      .program).1 = some (.unassignable ⟨3, 9⟩) := by decide +kernel
  -- only the error is evaluated, the parser after it stays a variable
  cases hanswer : ((Parser.ofSource .default "$x\n'é'.f = 1").session [.expression]).answer
      .program with
  | mk found p =>
    rw [hanswer] at hfirst
    obtain rfl : found = some (.unassignable ⟨3, 9⟩) := hfirst
    exact ⟨p, rfl, points_of_answer hanswer⟩

/-! ## the innermost open construct -/

/-- The opener of a construct and its closer are a pair of brackets, or two bars. -/
theorem Construct.opener_closer (construct : Construct) :
    (construct.opener, construct.closer) ∈ [(Symbol.openParen, Symbol.closeParen),
      (.openBracket, .closeBracket), (.openBrace, .closeBrace), (.pipe, .pipe)] := by
  cases construct <;> decide

/-- A construct that is reported as never closed is the innermost one that is open: the
parser is at the end of the source, the report is for a token that opens such a construct
and whose closer is the one asked for, and among the tokens after it the brackets match; if
it is a bar, it is an opening one, with nothing but parameters after it. -/
theorem innermost_of_unterminated {calls : StatementCalls} {source : String}
    {construct : Construct} {span : Span} {p : Parser Span}
    (h : (Parser.ofSource calls source).program = (.error (.unterminated construct span), p)) :
    p.cursor.ahead = [] ∧ ∃ before opener inside,
      Token.significant (Token.ofText source) = before ++ opener :: inside ∧
      p.cursor.passed.reverse = before ++ opener :: inside ∧
      opener.span = span ∧ opener.kind = .symbol construct.opener ∧
      (construct.opener, construct.closer) ∈ [(Symbol.openParen, Symbol.closeParen),
        (.openBracket, .closeBracket), (.openBrace, .closeBrace), (.pipe, .pipe)] ∧
      Balanced inside ∧
      (construct = .lambdaParameters → AllKinds Kind.isParameter inside) := by
  have hanswer : (Parser.ofSource calls source).answer .program
      = (some (.unterminated construct span), p) := by
    rw [Parser.answer, h]
    rfl
  have hrefuses := Parser.refuses_answer (congrArg Prod.fst hanswer)
  rw [hanswer] at hrefuses
  have htokens : p.cursor.tokens = Token.significant (Token.ofText source) :=
    hrefuses.crosses.of_start.1
  cases hrefuses.refused with
  | unterminated hinside hend =>
    obtain ⟨opener, inside, before, hpassed, hkind, hspan, -, hbalanced, hparams⟩ := hinside
    have hread : p.cursor.passed.reverse = before.reverse ++ opener :: inside := by
      rw [hpassed, List.reverse_append, List.reverse_cons, List.reverse_reverse,
        List.append_assoc, List.singleton_append]
    refine ⟨hend, before.reverse, opener, inside, ?_, hread, hspan, hkind,
      construct.opener_closer, hbalanced, hparams⟩
    rw [← htokens, Cursor.tokens, hend, List.append_nil, hread]

/-- A list of keys in a hash in a call, with a group inside it that is closed. -/
theorem innermost_of_unterminated_access : ∃ p,
    (Parser.ofSource .default "f(\x7b$a[1, (2)").program
      = (.error (.unterminated .access ⟨5, 6⟩), p) ∧
    p.cursor.ahead = [] ∧ ∃ before opener inside,
      Token.significant (Token.ofText "f(\x7b$a[1, (2)") = before ++ opener :: inside ∧
      p.cursor.passed.reverse = before ++ opener :: inside ∧
      opener.span = ⟨5, 6⟩ ∧ opener.kind = .symbol Construct.access.opener ∧
      (Construct.access.opener, Construct.access.closer) ∈
        [(Symbol.openParen, Symbol.closeParen), (.openBracket, .closeBracket),
          (.openBrace, .closeBrace), (.pipe, .pipe)] ∧
      Balanced inside ∧
      (Construct.access = .lambdaParameters → AllKinds Kind.isParameter inside) := by
  have hfirst : (Parser.ofSource .default "f(\x7b$a[1, (2)").program.1.map (fun _ => ())
      = .error (.unterminated .access ⟨5, 6⟩) := by decide +kernel
  -- only the error is evaluated, the parser after it stays a variable
  cases hprogram : (Parser.ofSource .default "f(\x7b$a[1, (2)").program with
  | mk found p =>
    rw [hprogram] at hfirst
    cases found with
    | ok v => cases hfirst
    | error e =>
      cases hfirst
      exact ⟨p, rfl, innermost_of_unterminated hprogram⟩

end CallGrammar
