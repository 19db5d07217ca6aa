import CallGrammar.Proofs.Bare
import CallGrammar.Proofs.Foresight
import CallGrammar.Proofs.Stray
import CallGrammar.Proofs.Trailing.Grammar

/-!
# CallGrammar.Proofs.Commas

Comma discipline: a comma may end a list that has an element, and only there may it stand
without an element to follow.  Behind the last element it changes nothing (`Trailing`); behind
another comma, or the bracket that opens a list, it is the reason why the source is refused
(`Stray`).

A source and one with a comma more have no tokens at the same places, so they are compared
as words without places (`Bare`).
-/

namespace CallGrammar

variable {calls : StatementCalls} {before items rest : List (Token Span)}
  {opener closer comma : Token Span}

/-! ## trailing commas -/

namespace Trailing

/-- The comma before one closer of a list. -/
def single (hsorted : Sorted (before ++ opener :: items ++ closer :: rest))
    (hlisted : Listed before opener items closer) (hunended : Unended items)
    (hcomma : comma.kind = .symbol .comma) : Trailing Span where
  added := comma
  marked t := decide (t = closer)
  touches t := t.touching
  tokens := before ++ opener :: items ++ closer :: rest
  added_kind := hcomma
  marked_kind t ht := by
    rw [of_decide_eq_true ht]
    exact hlisted.closesList
  listed inside closer' rest' htokens hmarked := by
    obtain rfl := of_decide_eq_true hmarked
    have hinside := append_cons_inj_of_nodup hsorted.nodup htokens
    exact ⟨before, opener, items, hinside, hlisted, hunended⟩

/-- One comma put before one closer. -/
theorem put_tokens_single (hsorted : Sorted (before ++ opener :: items ++ closer :: rest))
    (hlisted : Listed before opener items closer) (hunended : Unended items)
    (hcomma : comma.kind = .symbol .comma) :
    (single hsorted hlisted hunended hcomma).put (single hsorted hlisted hunended hcomma).tokens
      = before ++ opener :: items ++ comma :: closer :: rest := by
  have hput := Insertion.put_of_single
    (w := (single hsorted hlisted hunended hcomma).toInsertion) hsorted.nodup
    (decide_eq_true rfl) fun _ => of_decide_eq_true
  have hplace : (single hsorted hlisted hunended hcomma).place closer = closer := by
    simp [Insertion.place, single]
  rwa [hplace] at hput

end Trailing

/-- **Trailing commas**: with a comma behind the last element of a list a source is read as it was
without. -/
theorem parse_of_trailing {source edited : String} {p : Program Span}
    (h : parse calls source = .ok p)
    (hsource : Token.significant (Token.ofText source)
      = before ++ opener :: items ++ closer :: rest)
    (hlisted : Listed before opener items closer) (hunended : Unended items)
    (hcomma : comma.kind = .symbol .comma)
    (hedited : (Token.significant (Token.ofText edited)).map Token.word
      = (before ++ opener :: items ++ comma :: closer :: rest).map Token.word) :
    ∃ q, parse calls edited = .ok q ∧ q.shape = p.shape := by
  have hsorted := hsource ▸ Token.sorted_significant source
  have hreads := reads_of_parse h
  rw [hsource] at hreads
  have hput : Reads _ .program ((Trailing.single hsorted hlisted hunended hcomma).put
      (Trailing.single hsorted hlisted hunended hcomma).tokens) [] p :=
    Trailing.reads_program hreads
  rw [Trailing.put_tokens_single] at hput
  exact Parser.exists_program_of_reads (q := Parser.ofSource calls edited) hput rfl rfl hedited

/-! ## stray commas -/

namespace Parser

variable {σ : Type} [Location σ] {p : Parser σ} {front tail : List (Token σ)} {t u : Token σ}

/-- A vector with a stray comma is refused for it, or for something before it. -/
theorem program_of_introduces (h : Introduces front t) (hu : u.kind = .symbol .comma)
    (hcursor : p.cursor = .start (front ++ t :: u :: tail)) :
    p.program.1 = .error (.strayComma u.span) ∨
      ∃ e q, p.program = (.error e, q) ∧ (u :: tail).length < q.cursor.ahead.length := by
  obtain ⟨w, hcontext, rfl, hsplit, hbehind⟩ := h.exists_stray p.context hu tail
  have hbefore : w.Before p.cursor := by
    rw [hcursor]
    exact ⟨w.before, rfl, hsplit⟩
  have henters : (Phrase.program : Phrase σ).Enters .token none := rfl
  have hends : w.Ends ((Grammar.program (bound p.cursor)).run w.context p.cursor) :=
    w.keeps (bound p.cursor) .program henters p.cursor (hbefore.stands nofun) nofun
  rw [hcontext] at hends
  cases hrun : (Grammar.program (bound p.cursor)).run p.context p.cursor with
  | done v c =>
    rw [hrun] at hends
    obtain ⟨ts, hts, hv⟩ := sound p.context (bound p.cursor) .program _ v c trivial hrun
    have hahead : c.ahead = [] := hv.after_eq_nil_of_program
    cases hends with
    | done _ hc =>
      obtain ⟨us, -, hus⟩ := hc
      simp [hahead] at hus
    | stops h => cases h
  | failed e c =>
    rw [hrun] at hends
    have hprogram : p.program = (.error e, { p with cursor := c }) := read_of_failed hrun
    cases hends with
    | failed _ hc =>
      obtain ⟨us, -, hus⟩ := hc
      refine .inr ⟨e, _, hprogram, ?_⟩
      change _ < c.ahead.length
      simp only [hus, List.length_append, List.length_cons]
      omega
    | stops h =>
      cases h
      exact .inl (congrArg Prod.fst hprogram)
  | exhausted =>
    exact absurd hrun (Grammar.program_within _ p.context p.cursor (Nat.le_refl _)).ne_exhausted

end Parser

/-- **Stray commas**: with a comma behind a token that introduces an element a source is refused
for that comma, whatever comes after it. -/
theorem parse_of_stray {source edited : String} {p : Program Span} {t : Token Span}
    {front tail : List (Token Span)} (h : parse calls source = .ok p)
    (hsource : Token.significant (Token.ofText source) = before ++ t :: rest)
    (hintroduces : Introduces before t)
    (hedited : Token.significant (Token.ofText edited) = front ++ comma :: tail)
    (hfront : front.map Token.word = (before ++ [t]).map Token.word)
    (hcomma : comma.kind = .symbol .comma) :
    parse calls edited = .error (.strayComma comma.span) := by
  obtain ⟨front, u, rfl, hwords, hword⟩ : ∃ front' u, front = front' ++ [u] ∧
      front'.map Token.word = before.map Token.word ∧ u.word = t.word := by
    rw [List.map_append] at hfront
    obtain ⟨front', last, rfl, hwords, hlast⟩ := List.map_eq_append_iff.1 hfront
    obtain ⟨u, rfl, hword⟩ := List.map_eq_singleton_iff.1 hlast
    exact ⟨front', u, rfl, hwords, hword⟩
  have hkinds : front.map (·.kind) = before.map (·.kind) := by
    have hfst := congrArg (List.map Prod.fst) hwords
    rwa [List.map_map, List.map_map] at hfst
  have hu : Introduces front u := hintroduces.of_kinds hkinds (congrArg Prod.fst hword)
  have hcursor : (Parser.ofSource calls edited).cursor = .start (front ++ u :: comma :: tail) := by
    rw [Parser.ofSource, hedited, List.append_assoc]
    rfl
  obtain hstray | ⟨e, q, hfails, hahead⟩ := Parser.program_of_introduces
    (p := Parser.ofSource calls edited) hu hcomma hcursor
  · exact hstray
  · -- the same refusal before what the source has, so the source would be refused
    let mixed : Parser Span := ⟨(Parser.ofSource calls source).context,
      .start ((front ++ [u]) ++ rest)⟩
    have hne : front ++ [u] ≠ [] := by simp
    have hmixed : mixed.program.1 = .error e :=
      Parser.program_of_horizon hfails rfl hne hedited rfl rfl hahead
    have hwords : mixed.cursor.ahead.map Token.word
        = (Parser.ofSource calls source).cursor.ahead.map Token.word := by
      change ((front ++ [u]) ++ rest).map _ = (Token.significant (Token.ofText source)).map _
      rw [hsource]
      simp [hwords, hword]
    obtain ⟨v, hv, -⟩ := Parser.exists_program_of_words (p := Parser.ofSource calls source)
      (q := mixed) rfl rfl rfl hwords h
    cases hmixed.symm.trans hv

/-- **Comma discipline**: a source that is accepted is accepted with one comma more behind the last
element of a list, with a tree that differs in its spans only; and with one comma more where an
element should begin it is refused, for that comma. -/
theorem parse_of_inserted_comma {source : String} {p : Program Span}
    (h : parse calls source = .ok p) :
    (∀ {edited : String} {before items rest : List (Token Span)} {opener closer comma : Token Span},
      Token.significant (Token.ofText source) = before ++ opener :: items ++ closer :: rest →
      Listed before opener items closer → Unended items → comma.kind = .symbol .comma →
      (Token.significant (Token.ofText edited)).map Token.word
        = (before ++ opener :: items ++ comma :: closer :: rest).map Token.word →
      ∃ q, parse calls edited = .ok q ∧ q.shape = p.shape) ∧
    ∀ {edited : String} {before rest front tail : List (Token Span)} {t comma : Token Span},
      Token.significant (Token.ofText source) = before ++ t :: rest → Introduces before t →
      Token.significant (Token.ofText edited) = front ++ comma :: tail →
      front.map Token.word = (before ++ [t]).map Token.word → comma.kind = .symbol .comma →
      parse calls edited = .error (.strayComma comma.span) :=
  ⟨parse_of_trailing h, parse_of_stray h⟩

/-- A comma behind the entry of a hash, and one before the hash that is an argument. -/
theorem parse_of_inserted_comma_hash : ∃ p q,
    parse .default "f(\x7b1 => 2\x7d)" = .ok p ∧ parse .default "f(\x7b1 => 2,\x7d)" = .ok q ∧
    q.shape = p.shape ∧ parse .default "f(,\x7b1 => 2\x7d)" = .error (.strayComma ⟨2, 3⟩) := by
  have hok : (parse .default "f(\x7b1 => 2\x7d)").isOk = true := by decide +kernel
  obtain ⟨p, hp⟩ := exists_of_isOk hok
  obtain ⟨htrailing, hstray⟩ := parse_of_inserted_comma hp
  let f : Token Span := ⟨.name "f", ⟨0, 1⟩, false⟩
  let paren : Token Span := ⟨.symbol .openParen, ⟨1, 2⟩, true⟩
  let opener : Token Span := ⟨.symbol .openBrace, ⟨2, 3⟩, true⟩
  let key : Token Span := ⟨.integer "1", ⟨3, 4⟩, true⟩
  let arrow : Token Span := ⟨.symbol .arrow, ⟨5, 7⟩, false⟩
  let value : Token Span := ⟨.integer "2", ⟨8, 9⟩, false⟩
  let closer : Token Span := ⟨.symbol .closeBrace, ⟨9, 10⟩, true⟩
  let last : Token Span := ⟨.symbol .closeParen, ⟨10, 11⟩, true⟩
  let comma : Token Span := ⟨.symbol .comma, ⟨2, 3⟩, true⟩
  have hsource : Token.significant (Token.ofText "f(\x7b1 => 2\x7d)")
      = [f, paren] ++ opener :: ([key] ++ arrow :: [value]) ++ closer :: [last] := by
    decide +kernel
  have hlisted : Listed [f, paren] opener ([key] ++ arrow :: [value]) closer :=
    .hash rfl (.cons rfl .nil) rfl (.cons rfl .nil) rfl
  have hunended : Unended ([key] ++ arrow :: [value]) := ⟨.integer "2", rfl, nofun⟩
  have htrail : (Token.significant (Token.ofText "f(\x7b1 => 2,\x7d)")).map Token.word
      = ([f, paren] ++ opener :: ([key] ++ arrow :: [value]) ++ comma :: closer :: [last]).map
        Token.word := by decide +kernel
  obtain ⟨q, hq, hshape⟩ := htrailing hsource hlisted hunended rfl htrail
  have hcall : Token.significant (Token.ofText "f(\x7b1 => 2\x7d)")
      = [f] ++ paren :: opener :: key :: arrow :: value :: closer :: [last] := hsource
  have hparen : Introduces [f] paren := .paren rfl rfl
  have hfront : Token.significant (Token.ofText "f(,\x7b1 => 2\x7d)")
      = [f, paren] ++ comma :: (Token.significant (Token.ofText "f(,\x7b1 => 2\x7d)")).drop 3 := by
    decide +kernel
  have hstray := hstray hcall hparen hfront rfl rfl
  exact ⟨p, q, hp, hq, hshape, hstray⟩

end CallGrammar
