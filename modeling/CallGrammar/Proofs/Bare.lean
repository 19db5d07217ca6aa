import CallGrammar.Proofs.RoundTrip
import CallGrammar.Proofs.Spacing

/-!
# CallGrammar.Proofs.Bare

Words without places.  An edited source has its tokens at other places than the source, so
what a reading sees of both is compared as words without places, to which either is taken by
`Lockstep.bare`.  What derives from some tokens is read of all tokens with the same words, up
to the places in it.
-/

namespace CallGrammar

/-- A token without a place that reads as the word. -/
def Token.ofWord (word : Kind × Bool) : Token Unit := ⟨word.1, (), word.2⟩

/-- A token is like the word that is left of it. -/
theorem Token.alike_ofWord {σ : Type} (t : Token σ) : t.Alike (fun _ => ()) (ofWord t.word) :=
  ⟨rfl, rfl, fun hkind => by simp [ofWord, word, hkind]⟩

namespace Parser

variable {p q : Parser Span} {v : Program Span}

/-- The parser before the first of the words. -/
def ofBareWords (calls : StatementCalls) (words : List (Kind × Bool)) : Parser Unit where
  context := .bare calls
  cursor := .start (words.map Token.ofWord)

/-- What is read is read of the words. -/
theorem relocate_program (hpassed : p.cursor.passed = []) :
    relocate (fun _ => ()) p.program.1
      = (ofBareWords p.context.calls (p.cursor.ahead.map Token.word)).program.1 := by
  have halike : p.cursor.Alike (fun _ => ())
      (ofBareWords p.context.calls (p.cursor.ahead.map Token.word)).cursor := by
    refine ⟨by rw [hpassed]; exact .nil, ?_⟩
    rw [ofBareWords, Cursor.start, List.map_map]
    exact List.forall₂_map_right_iff.2 (List.forall₂_same.2 fun t _ => t.alike_ofWord)
  have hresult := (Lockstep.bare p.context).program_result rfl rfl halike
  obtain ⟨v, hv, hbare⟩ | ⟨e, he, ⟨name, span, -, hname, hnot⟩ | hbare⟩ := hresult
  · rw [hv]
    exact hbare.symm
  · exact absurd hname hnot
  · rw [he]
    exact hbare.symm

/-- Tokens with the same words are read alike. -/
theorem exists_program_of_words (hp : p.cursor.passed = []) (hq : q.cursor.passed = [])
    (hcalls : q.context.calls = p.context.calls)
    (hwords : q.cursor.ahead.map Token.word = p.cursor.ahead.map Token.word)
    (h : p.program.1 = .ok v) : ∃ v', q.program.1 = .ok v' ∧ v'.shape = v.shape := by
  have hread := (relocate_program hq).trans (hcalls ▸ hwords ▸ (relocate_program hp).symm)
  rw [h] at hread
  cases hresult : q.program.1 with
  | ok v' =>
    rw [hresult] at hread
    exact ⟨v', rfl, Except.ok.inj hread⟩
  | error e =>
    rw [hresult] at hread
    cases hread

/-- What derives from some tokens is read of others with the same words. -/
theorem exists_program_of_reads {context : Context Span} {ts : List (Token Span)}
    (h : Reads context .program ts [] v) (hq : q.cursor.passed = [])
    (hcalls : q.context.calls = context.calls)
    (hwords : q.cursor.ahead.map Token.word = ts.map Token.word) :
    ∃ v', q.program.1 = .ok v' ∧ v'.shape = v.shape := by
  let written : Parser Span := ⟨context, .start ts⟩
  have hread : written.program.1 = .ok v := program_of_reads h
  exact exists_program_of_words (p := written) rfl hq hcalls hwords hread

end Parser

end CallGrammar
