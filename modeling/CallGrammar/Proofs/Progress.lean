import CallGrammar.Proofs.Lockstep
import CallGrammar.Proofs.Session

/-!
# CallGrammar.Proofs.Progress

Every reading ends, whatever the vector and wherever the cursor stands in it, and gets on:

1. from some bound on nested calls on, a phrase has an answer, and always the same one
   (`Request.run_eq_of_le`); eight calls for each token ahead, and eight more, are enough;
2. the cursor moves to the right in one vector, also where a phrase is refused
   (`Outcome.Along`);
3. a phrase that is read has passed a token, and a source unit all of them
   (`Request.within`).
-/

namespace CallGrammar

variable {σ α : Type}

/-! ## positions -/

namespace Cursor

variable {c d : Cursor σ}

/-- The tokens passed and those ahead are all. -/
theorem position_add_length (c : Cursor σ) : c.position + c.ahead.length = c.tokens.length := by
  simp [position, tokens]

/-- A cursor moves over the same tokens. -/
theorem Crosses.tokens_eq (h : c.Crosses d) : d.tokens = c.tokens := by
  obtain ⟨ts, ⟨hahead, hpassed⟩, -⟩ := h
  simp [tokens, hahead, hpassed]

/-- A cursor moves forward. -/
theorem Crosses.position_le (h : c.Crosses d) : c.position ≤ d.position := by
  obtain ⟨ts, ⟨-, hpassed⟩, -⟩ := h
  simp [position, hpassed]

/-- A vector has one position with a given number of tokens ahead. -/
theorem eq_of_tokens_eq (h : c.tokens = d.tokens) (hlength : c.ahead.length = d.ahead.length) :
    c = d := by
  obtain ⟨passed, ahead⟩ := c
  obtain ⟨passed', ahead'⟩ := d
  obtain ⟨hpassed, rfl⟩ := List.append_inj' h hlength
  exact congrArg (Cursor.mk · ahead) (List.reverse_inj.1 hpassed)

end Cursor

/-- The cursor ends where it was, or further on in the same vector. -/
def Outcome.Along (o : Outcome σ α) (c : Cursor σ) : Prop :=
  match o with
  | .done _ d | .failed _ d => d.tokens = c.tokens ∧ c.position ≤ d.position
  | .exhausted => True

/-! ## the bound on nested calls -/

variable [Location σ] {context : Context σ} {c : Cursor σ} {n m : Nat}

/-- A request moves the cursor forward over its tokens. -/
theorem Request.along (request : Request) (n : Nat) (context : Context σ) (c : Cursor σ) :
    ((request.phrase.parse n).run context c).Along c := by
  have hcross := request.crosses n context c
  generalize (request.phrase.parse n).run context c = o at hcross ⊢
  cases o with
  | done v d => exact ⟨Cursor.Crosses.tokens_eq hcross, Cursor.Crosses.position_le hcross⟩
  | failed e d => exact ⟨Cursor.Crosses.tokens_eq hcross, Cursor.Crosses.position_le hcross⟩
  | exhausted => trivial

/-- Two readings of one vector, of which the second may have more nested calls. -/
def Lockstep.deeper (context : Context σ) : Lockstep σ σ where
  move := id
  first := context
  second := context
  merge _ _ := rfl
  finish := rfl
  calls _ hname := hname

/-- Where the first of two such readings has an answer, the second has the same one. -/
theorem Outcome.eq_of_after {o o' : Outcome σ α} {g : α → α} (hg : ∀ v, g v = v)
    (h : (Lockstep.deeper context).After g o o') (ho : o.Along c) (ho' : o'.Along c)
    (hne : o ≠ .exhausted) : o' = o := by
  cases o with
  | done v d =>
    obtain ⟨d', rfl, halike⟩ := h
    have hd : d' = d :=
      Cursor.eq_of_tokens_eq (ho'.1.trans ho.1.symm) halike.2.length_eq.symm
    rw [hd, hg]
  | failed e d =>
    obtain ⟨name, span, -, hknown, hunknown⟩ | ⟨d', rfl, halike⟩ := h
    · exact absurd hknown hunknown
    · have he : e.map id = e := e.map_id
      have hd : d' = d :=
        Cursor.eq_of_tokens_eq (ho'.1.trans ho.1.symm) halike.2.length_eq.symm
      rw [hd]
      exact congrArg (Outcome.failed · d) he
  | exhausted => exact absurd rfl hne

omit [Location σ] in
theorem Grammar.Callable.map_id (v : Callable σ) : v.map id = v := by
  cases v with
  | statement stmt => exact congrArg _ stmt.map_id
  | value expr => exact congrArg _ expr.map_id

/-- An answer that is found within some bound is found within any larger one. -/
theorem Request.run_eq_of_le (request : Request) (hnm : n ≤ m)
    (hne : (request.phrase.parse n).run context c ≠ .exhausted) :
    (request.phrase.parse m).run context c = (request.phrase.parse n).run context c := by
  have hafter (p : Phrase σ) (henters : p.Enters .token none) :=
    (Lockstep.deeper context).follows hnm p henters c c c.alike_id nofun
  have hn := request.along n context c
  have hm := request.along m context c
  cases request with
  | program => exact Outcome.eq_of_after Program.map_id (hafter .program rfl) hn hm hne
  | expression => exact Outcome.eq_of_after Expr.map_id (hafter (.expression 0) rfl) hn hm hne
  | lambda => exact Outcome.eq_of_after Lambda.map_id (hafter .lambda rfl) hn hm hne
  | arguments => exact Outcome.eq_of_after mapExprs_id (hafter .arguments rfl) hn hm hne
  | bareArguments => exact Outcome.eq_of_after mapExprs_id (hafter .bareArguments rfl) hn hm hne
  | callable => exact Outcome.eq_of_after Grammar.Callable.map_id (hafter .callable rfl) hn hm hne
  | callOrWord => exact Outcome.eq_of_after Expr.map_id (hafter .callOrWord rfl) hn hm hne

/-! ## what a reading consumes -/

/-- A phrase that is read leaves fewer tokens ahead, but for an empty source unit. -/
theorem Request.within (request : Request) (context : Context σ) (c : Cursor σ) :
    ((request.phrase.parse (Parser.bound c)).run context c).Within
      (c.ahead.length + if request = .program then 1 else 0) := by
  unfold Parser.bound
  cases request with
  | program => exact Grammar.program_within _ context c (Nat.le_refl _)
  | expression => exact Grammar.expression_within 0 _ context c (by omega)
  | lambda => exact Grammar.lambda_within _ context c (by omega)
  | arguments => exact Grammar.arguments_within _ context c (by omega)
  | bareArguments => exact Grammar.bareArguments_within _ context c (by omega)
  | callable => exact Grammar.callable_within _ context c (by omega)
  | callOrWord => exact Grammar.callOrWord_within _ context c (by omega)

/-- A source unit is read up to the end of the input. -/
theorem Request.ahead_of_program {v : Program σ} {d : Cursor σ}
    (h : (program.phrase.parse n).run context c = .done v d) : d.ahead = [] := by
  obtain ⟨ts, -, hreads⟩ := sound context n .program c v d trivial h
  exact hreads.after_eq_nil_of_program

/-- **Progress**: from every position in every vector, each reading has an answer, which no
larger bound on nested calls changes; the cursor then stands there or further on in the same
vector; and what was read is at least one token, of a source unit all that are left. -/
theorem Parser.progress_of_answer (p : Parser σ) (request : Request) :
    (∃ o, (∀ n, bound p.cursor ≤ n → (request.phrase.parse n).run p.context p.cursor = o) ∧
      ((∃ v c, o = .done v c ∧ p.answer request = (none, { p with cursor := c })) ∨
        ∃ e c, o = .failed e c ∧ p.answer request = (some e, { p with cursor := c }))) ∧
    (p.answer request).2.cursor.tokens = p.cursor.tokens ∧
    p.cursor.position ≤ (p.answer request).2.cursor.position ∧
    (p.answer request).2.cursor.position ≤ p.cursor.tokens.length ∧
    ((p.answer request).1 = none →
      if request = .program then (p.answer request).2.cursor.position = p.cursor.tokens.length
      else p.cursor.position < (p.answer request).2.cursor.position) := by
  have halong := request.along (bound p.cursor) p.context p.cursor
  have hwithin := request.within p.context p.cursor
  have hdeeper (n : Nat) (hn : bound p.cursor ≤ n) :=
    request.run_eq_of_le hn hwithin.ne_exhausted
  have hposition := p.cursor.position_add_length
  obtain ⟨v, c, hrun, hanswer⟩ | ⟨e, c, hrun, hanswer⟩ := p.answer_cases request
  · rw [hrun] at halong hwithin hdeeper
    obtain ⟨htokens, hle⟩ := halong
    have hposition' := c.position_add_length
    rw [htokens] at hposition'
    refine ⟨⟨_, hdeeper, .inl ⟨v, c, rfl, hanswer⟩⟩, ?_⟩
    rw [hanswer]
    refine ⟨htokens, hle, by simp only; omega, fun _ => ?_⟩
    split
    · next hprogram =>
      subst hprogram
      have hahead : c.ahead = [] := Request.ahead_of_program hrun
      simpa [hahead] using hposition'
    · next hother =>
      have hlt : c.ahead.length < p.cursor.ahead.length := by
        simpa [Outcome.Within, hother] using hwithin
      simp only
      omega
  · rw [hrun] at halong hdeeper
    obtain ⟨htokens, hle⟩ := halong
    have hposition' := c.position_add_length
    rw [htokens] at hposition'
    refine ⟨⟨_, hdeeper, .inr ⟨e, c, rfl, hanswer⟩⟩, ?_⟩
    rw [hanswer]
    exact ⟨htokens, hle, by simp only; omega, nofun⟩

end CallGrammar
