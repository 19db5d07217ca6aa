import CallGrammar.Proofs.Adjacent
import CallGrammar.Proofs.Faults
import CallGrammar.Proofs.Horizon
import CallGrammar.Proofs.StatementCalls

/-!
# CallGrammar.Proofs.Foresight

A refusal depends only on the tokens up to the cursor.  Of two sources that have the same
tokens up to the one where the first is refused, the second is refused for the same reason,
whatever comes after.
-/

namespace CallGrammar

/-! ## the same tokens -/

namespace Token

/-- The kind of a token, with its fault if it is invalid, and its place. -/
def located (t : Token Span) : Kind × Span := (t.kind, t.span)

/-- A token at an index of both vectors, if there is one in the first. -/
theorem exists_located {ts us : List (Token Span)} {i : Nat} {t : Token Span}
    (h : ts[i]?.map located = us[i]?.map located) (ht : ts[i]? = some t) :
    ∃ u, us[i]? = some u ∧ u.kind = t.kind ∧ u.span = t.span := by
  rw [ht] at h
  obtain ⟨u, hu, htu⟩ := Option.map_eq_some_iff.1 h.symm
  obtain ⟨hkind, hspan⟩ := Prod.mk.inj htu
  exact ⟨u, hu, hkind, hspan⟩

/-- Whether tokens stand side by side is told by their places. -/
theorem Adjacent.of_located {ts us : List (Token Span)} {i : Nat}
    (h : ∀ j, j ≤ i → ts[j]?.map located = us[j]?.map located) (hts : Adjacent ts i) :
    Adjacent us i := by
  obtain ⟨before, t, hbefore, ht, hkind, hstop⟩ := hts
  obtain ⟨u, hu, -, hspan⟩ := exists_located (h i (Nat.le_refl i)) ht
  cases i with
  | zero => cases hbefore
  | succ i =>
    obtain ⟨before', hbefore', hkind', hspan'⟩ := exists_located (h i (Nat.le_succ i)) hbefore
    refine ⟨before', u, hbefore', hu, ?_, ?_⟩
    · rw [hkind']
      exact hkind
    · rw [hspan', hspan]
      exact hstop

/-- Tokens of the same kinds at the same places are the same: they touch alike. -/
theorem take_eq_of_located {source other : String} {n : Nat}
    (h : ((significant (ofText source)).take n).map located
      = ((significant (ofText other)).take n).map located) :
    (significant (ofText source)).take n = (significant (ofText other)).take n := by
  have hlocated : ∀ i, i < n → (significant (ofText source))[i]?.map located
      = (significant (ofText other))[i]?.map located := by
    intro i hi
    have hget := congrArg (fun ts => ts[i]?) h
    simpa [List.getElem?_take, hi] using hget
  refine List.ext_getElem? fun i => ?_
  by_cases hi : i < n
  · rw [List.getElem?_take, List.getElem?_take, if_pos hi, if_pos hi]
    cases ht : (significant (ofText source))[i]? with
    | none =>
      have hnone := hlocated i hi
      rw [ht] at hnone
      exact (Option.map_eq_none_iff.1 hnone.symm).symm
    | some t =>
      obtain ⟨u, hu, hkind, hspan⟩ := exists_located (hlocated i hi) ht
      have htouching : u.touching = t.touching := by
        rw [Bool.eq_iff_iff, touching_iff_adjacent hu, touching_iff_adjacent ht]
        exact ⟨.of_located fun j hj => (hlocated j (Nat.lt_of_le_of_lt hj hi)).symm,
          .of_located fun j hj => hlocated j (Nat.lt_of_le_of_lt hj hi)⟩
      obtain ⟨kind, span, touching⟩ := t
      obtain ⟨kind', span', touching'⟩ := u
      cases hkind
      cases hspan
      cases htouching
      exact hu.symm
  · rw [List.getElem?_take, List.getElem?_take, if_neg hi, if_neg hi]

end Token

/-! ## more nested calls -/

/-- With more nested calls a source unit is read or refused alike. -/
theorem Grammar.program_after (context : Context Span) (c : Cursor Span) {n m : Nat}
    (h : n ≤ m) :
    (∀ v d, (Grammar.program n).run context c = .done v d →
      ∃ w d', (Grammar.program m).run context c = .done w d') ∧
    ∀ e d, (Grammar.program n).run context c = .failed e d →
      ∃ d', (Grammar.program m).run context c = .failed e d' ∧
        d'.ahead.length = d.ahead.length := by
  have hcalls : ∀ name, name ∈ context.calls → name ∈ context.calls := fun _ hname => hname
  have henters : (Phrase.program : Phrase Span).Enters .token none := rfl
  have hafter := (Lockstep.extend context.finish hcalls).follows h _ henters c c c.alike_id nofun
  constructor
  · intro v d hrun
    have hrun : (Phrase.program.parse n).run (Lockstep.extend context.finish hcalls).first c
        = .done v d := hrun
    rw [hrun] at hafter
    obtain ⟨d', hd', -⟩ := hafter
    exact ⟨_, d', hd'⟩
  · intro e d hrun
    have hrun : (Phrase.program.parse n).run (Lockstep.extend context.finish hcalls).first c
        = .failed e d := hrun
    rw [hrun] at hafter
    obtain ⟨name, span, -, hknown, hunknown⟩ | ⟨d', hd', halike⟩ := hafter
    · exact absurd hknown hunknown
    · refine ⟨d', ?_, halike.2.length_eq.symm⟩
      have he : e.map id = e := e.map_id
      rw [← he]
      exact hd'

/-! ## refusals -/

namespace Parser

variable {p p' q : Parser Span} {e : ParseError Span} {n : Nat}

/-- An error of the parser is one of the grammar, at any larger bound and at the same cursor.
-/
theorem failed_of_program (h : p.program = (.error e, q)) (hn : bound p.cursor ≤ n) :
    ∃ d, (Grammar.program n).run p.context p.cursor = .failed e d ∧
      d.ahead.length = q.cursor.ahead.length := by
  have hrun := Parser.failed_of_read h
  exact (Grammar.program_after p.context p.cursor hn).2 e q.cursor hrun

/-- An error of the grammar is what the parser answers. -/
theorem program_of_failed {d : Cursor Span} (hn : bound p.cursor ≤ n)
    (h : (Grammar.program n).run p.context p.cursor = .failed e d) : p.program.1 = .error e := by
  obtain ⟨hdone, hfailed⟩ := Grammar.program_after p.context p.cursor hn
  cases hrun : (Grammar.program (bound p.cursor)).run p.context p.cursor with
  | done v c =>
    obtain ⟨w, c', hc'⟩ := hdone v c hrun
    cases h.symm.trans hc'
  | failed e' c =>
    obtain ⟨c', hc', -⟩ := hfailed e' c hrun
    cases h.symm.trans hc'
    exact congrArg Prod.fst (read_of_failed hrun)
  | exhausted =>
    have henough := Grammar.program_within _ p.context p.cursor (Nat.le_refl _)
    exact absurd hrun henough.ne_exhausted

/-- A refusal on a token is the same where other tokens follow that one. -/
theorem program_of_horizon {ts as bs : List (Token Span)} (h : p.program = (.error e, q))
    (hcalls : p'.context.calls = p.context.calls) (hts : ts ≠ [])
    (hahead : p.cursor.ahead = ts ++ as) (hahead' : p'.cursor.ahead = ts ++ bs)
    (hpassed : p'.cursor.passed = p.cursor.passed) (hq : as.length < q.cursor.ahead.length) :
    p'.program.1 = .error e := by
  obtain ⟨n, hn, hn'⟩ : ∃ n, bound p.cursor ≤ n ∧ bound p'.cursor ≤ n :=
    ⟨max _ _, Nat.le_max_left _ _, Nat.le_max_right _ _⟩
  obtain ⟨d, hrun, hlength⟩ := failed_of_program h hn
  have henters : (Phrase.program : Phrase Span).Enters .token none := rfl
  have htracks := (Horizon.mk p.context p'.context hcalls as bs).tracks n _ henters
  have hkeeps := htracks.keeps p.cursor p'.cursor ⟨ts, hts, hahead, hahead', hpassed⟩
  have hrun : (Phrase.program.parse n).run p.context p.cursor = .failed e d := hrun
  rw [hrun] at hkeeps
  obtain hpast | hsame := hkeeps
  · have hpast : d.ahead.length ≤ as.length := hpast
    omega
  · generalize hrun' : (Phrase.program.parse n).run p'.context p'.cursor = o at hsame
    cases hsame with
    | failed => exact program_of_failed hn' hrun'

end Parser

/-- **Foresight**: a source that is refused with the cursor on one of its tokens is refused
for the same reason with any other tokens after that one. -/
theorem parse_eq_error_of_located {calls : StatementCalls} {source other : String}
    {e : ParseError Span} {q : Parser Span}
    (h : (Parser.ofSource calls source).program = (.error e, q)) (hnext : q.cursor.ahead ≠ [])
    (hsame : ((Token.significant (Token.ofText source)).take (q.cursor.position + 1)).map
        Token.located
      = ((Token.significant (Token.ofText other)).take (q.cursor.position + 1)).map
        Token.located) :
    parse calls other = .error e := by
  have htake := Token.take_eq_of_located hsame
  have hanswer : (Parser.ofSource calls source).answer .program = (some e, q) := by
    change (Parser.ofSource calls source).program.map refusal? id = (some e, q)
    rw [h]
    rfl
  have hcross := ((Parser.ofSource calls source).crosses_answer .program).2
  rw [hanswer] at hcross
  have htokens : q.cursor.tokens = Token.significant (Token.ofText source) := hcross.of_start.1
  have hlength : q.cursor.position + q.cursor.ahead.length
      = (Token.significant (Token.ofText source)).length := by
    rw [← htokens, Cursor.tokens, List.length_append, List.length_reverse, Cursor.position]
  have hpos : 0 < q.cursor.ahead.length := List.length_pos_iff.2 hnext
  have hsplit := List.take_append_drop (q.cursor.position + 1)
    (Token.significant (Token.ofText source))
  have hsplit' := List.take_append_drop (q.cursor.position + 1)
    (Token.significant (Token.ofText other))
  rw [← htake] at hsplit'
  refine Parser.program_of_horizon h rfl ?_ hsplit.symm hsplit'.symm rfl ?_
  · rw [← List.length_pos_iff, List.length_take]
    omega
  · rw [List.length_drop]
    omega

/-- A bracket where a statement should begin, behind the look for another branch. -/
theorem parse_eq_error_of_located_bracket : ∃ e q,
    (Parser.ofSource .default "if a\x7b\x7d\n] 1").program = (.error e, q) ∧
    q.cursor.ahead ≠ [] ∧
    ((Token.significant (Token.ofText "if a\x7b\x7d\n] 1")).take (q.cursor.position + 1)).map
        Token.located
      = ((Token.significant (Token.ofText "if a\x7b\x7d\n]~")).take (q.cursor.position + 1)).map
        Token.located ∧
    parse .default "if a\x7b\x7d\n]~" = .error e ∧
    e = .unexpected .expression (some (.symbol .closeBracket)) ⟨7, 8⟩ := by
  have hrefusal : refusal? (Parser.ofSource .default "if a\x7b\x7d\n] 1").program.1
      = some (.unexpected .expression (some (.symbol .closeBracket)) ⟨7, 8⟩) := by decide +kernel
  have hcursor : (Parser.ofSource .default "if a\x7b\x7d\n] 1").program.2.cursor.position = 5 ∧
      (Parser.ofSource .default "if a\x7b\x7d\n] 1").program.2.cursor.ahead ≠ [] := by
    decide +kernel
  have hsame : ((Token.significant (Token.ofText "if a\x7b\x7d\n] 1")).take 6).map Token.located
      = ((Token.significant (Token.ofText "if a\x7b\x7d\n]~")).take 6).map Token.located := by
    decide +kernel
  cases hrun : (Parser.ofSource .default "if a\x7b\x7d\n] 1").program with
  | mk result q =>
    rw [hrun] at hrefusal hcursor
    obtain ⟨hposition, hahead⟩ := hcursor
    cases result with
    | ok p => cases hrefusal
    | error e =>
      have hlength : q.cursor.position + 1 = 6 := congrArg (· + 1) hposition
      rw [← hlength] at hsame
      exact ⟨e, q, rfl, hahead, hsame, parse_eq_error_of_located hrun hahead hsame,
        Option.some.inj hrefusal⟩

end CallGrammar
