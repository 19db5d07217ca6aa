import CallGrammar.Proofs.Faults
import CallGrammar.Proofs.Reading.Complete
import CallGrammar.Proofs.Reading.Continues
import CallGrammar.Proofs.Seam

/-!
# CallGrammar.Proofs.Concatenation

A source, a line break and another source: the statements are those of the one, then
those of the other, moved.
-/

namespace CallGrammar

/-- The tokens for the parser of two runs, one after the other. -/
theorem Token.significant_append {σ : Type} (ts us : List (Token σ)) :
    significant (ts ++ us) = significant ts ++ significant us :=
  List.filter_append ts us

/-- Which tokens the parser gets does not depend on their places. -/
theorem Token.significant_map {σ τ : Type} (f : σ → τ) (ts : List (Token σ)) :
    significant (ts.map (Token.map f)) = (significant ts).map (Token.map f) := by
  rw [significant, List.filter_map]
  rfl

/-- The significant tokens of a text without faults, a line break, and another text. -/
theorem Token.significant_append_newline {source : String}
    (h : errors (ofText source) = []) (rest : String) :
    ∃ nl : Token Span, nl.kind = .newline ∧
      significant (ofText (source ++ "\n" ++ rest)) = significant (ofText source)
        ++ nl :: (significant (ofText rest)).map
          (Token.map (Span.shift (source.utf8ByteSize + 1))) := by
  obtain ⟨touching, htokens⟩ := ofText_append_newline h rest
  refine ⟨⟨.newline, ⟨source.utf8ByteSize, source.utf8ByteSize + 1⟩, touching⟩, rfl, ?_⟩
  rw [htokens, significant_append, ← significant_map]
  rfl

/-- **Concatenation**: two sources that are accepted are accepted with a line break between
them, and have their statements one after the other. -/
theorem parse_append_newline {calls : StatementCalls} {first second : String}
    {p q : Program Span} (hp : parse calls first = .ok p) (hq : parse calls second = .ok q) :
    ∃ r, parse calls (first ++ "\n" ++ second) = .ok r ∧
      r.body.stmts = p.body.stmts
        ++ q.body.stmts.map (Stmt.map (Span.shift (first.utf8ByteSize + 1))) := by
  obtain ⟨nl, hnl, htokens⟩ := Token.significant_append_newline (errors_of_parse hp) second
  have hfirst := (reads_of_parse hp).statements_of_program
  have hsecond := (reads_shift (first.utf8ByteSize + 1) hq).statements_of_program
  have hfinish : (Parser.ofSource calls (first ++ "\n" ++ second)).context
      = ⟨(Parser.ofSource calls second).context.finish.shift (first.utf8ByteSize + 1), calls⟩ := by
    have hsize : (first ++ "\n" ++ second).utf8ByteSize
        = second.utf8ByteSize + (first.utf8ByteSize + 1) := by
      rw [String.utf8ByteSize_append, String.utf8ByteSize_append, Nat.add_comm]
      rfl
    simp only [Parser.ofSource, Span.shift, hsize]
  have hstmts := hfirst.statements_append hsecond hnl rfl
  rw [← hfinish, ← htokens] at hstmts
  obtain ⟨r, hr, heq⟩ := hstmts.exists_program
  refine ⟨r, Parser.program_of_reads hr, ?_⟩
  rw [heq, Program.stmts_map]

/-- The first source ends in a conditional, and the second begins with line breaks. -/
theorem parse_append_newline_if : ∃ p q r,
    parse .default "if true { f(1) }" = .ok p ∧ parse .default "\n\n$x = [2]" = .ok q ∧
    parse .default ("if true { f(1) }" ++ "\n" ++ "\n\n$x = [2]") = .ok r ∧
    r.body.stmts = p.body.stmts
      ++ q.body.stmts.map (Stmt.map (Span.shift ("if true { f(1) }".utf8ByteSize + 1))) := by
  have hfirst : (parse .default "if true { f(1) }").isOk = true := by decide +kernel
  have hsecond : (parse .default "\n\n$x = [2]").isOk = true := by decide +kernel
  obtain ⟨p, hp⟩ := exists_of_isOk hfirst
  obtain ⟨q, hq⟩ := exists_of_isOk hsecond
  obtain ⟨r, hr, hstmts⟩ := parse_append_newline hp hq
  exact ⟨p, q, r, hp, hq, hr, hstmts⟩

end CallGrammar
