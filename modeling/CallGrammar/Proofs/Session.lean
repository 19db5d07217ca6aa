import CallGrammar.Parser
import CallGrammar.Proofs.Refusal.Grammar

/-!
# CallGrammar.Proofs.Session

Any readings, one after another, on one parser.  A reading stands where the one before
it has stopped, also where that one was refused, so what holds of one reading at any
cursor holds of the whole session.
-/

namespace CallGrammar

variable {σ α : Type} [Location σ]

/-! ## readings on request -/

/-- The readings that a parser offers. -/
inductive Request where
  | program | expression | lambda | arguments | bareArguments | callable | callOrWord
  deriving DecidableEq

/-- The phrase that is asked for. -/
def Request.phrase : Request → Phrase σ
  | program => .program
  | expression => .expression 0
  | lambda => .lambda
  | arguments => .arguments
  | bareArguments => .bareArguments
  | callable => .callable
  | callOrWord => .callOrWord

omit [Location σ] in
/-- Each request begins where its phrase may, with nothing looked at before. -/
theorem Request.enters (request : Request) :
    (request.phrase : Phrase σ).Enters .token none := by
  cases request <;> rfl

/-- Whatever is asked for, the cursor goes past valid tokens only. -/
theorem Request.crosses (request : Request) (n : Nat) (context : Context σ) (c : Cursor σ) :
    ((request.phrase.parse n).run context c).CrossesFrom c := by
  have hcrossing : Crossing context none .token (request.phrase.parse n) :=
    Phrase.crosses _ n request.enters
  exact hcrossing c nofun

/-- The bound on nested calls is enough for all of them. -/
theorem Request.enough (request : Request) (context : Context σ) (c : Cursor σ) :
    (request.phrase.parse (Parser.bound c)).run context c ≠ .exhausted := by
  unfold Parser.bound
  cases request with
  | program => exact (Grammar.program_within _ context c (Nat.le_refl _)).ne_exhausted
  | expression => exact (Grammar.expression_within 0 _ context c (by omega)).ne_exhausted
  | lambda => exact (Grammar.lambda_within _ context c (by omega)).ne_exhausted
  | arguments => exact (Grammar.arguments_within _ context c (by omega)).ne_exhausted
  | bareArguments => exact (Grammar.bareArguments_within _ context c (by omega)).ne_exhausted
  | callable => exact (Grammar.callable_within _ context c (by omega)).ne_exhausted
  | callOrWord => exact (Grammar.callOrWord_within _ context c (by omega)).ne_exhausted

/-- The error of a phrase that was refused. -/
def refusal? : Except (ParseError σ) α → Option (ParseError σ)
  | .ok _ => none
  | .error e => some e

namespace Parser

/-- The refusal of the request, if it is one, and the parser after it. -/
def answer (p : Parser σ) : Request → Option (ParseError σ) × Parser σ
  | .program => p.program.map refusal? id
  | .expression => p.expression.map refusal? id
  | .lambda => p.lambda.map refusal? id
  | .arguments => p.arguments.map refusal? id
  | .bareArguments => p.bareArguments.map refusal? id
  | .callable => p.callable.map refusal? id
  | .callOrWord => p.callOrWord.map refusal? id

/-- The parser after all the requests. -/
def session (p : Parser σ) (requests : List Request) : Parser σ :=
  requests.foldl (fun p request => (p.answer request).2) p

omit [Location σ] in
/-- A reading gives what the grammar gives at its cursor. -/
theorem read_cases (p : Parser σ) (phrase : Nat → Parse σ α)
    (enough : ∀ context c, (phrase (bound c)).run context c ≠ .exhausted) :
    (∃ v c, (phrase (bound p.cursor)).run p.context p.cursor = .done v c ∧
      (p.read phrase enough).map refusal? id = (none, { p with cursor := c })) ∨
    ∃ e c, (phrase (bound p.cursor)).run p.context p.cursor = .failed e c ∧
      (p.read phrase enough).map refusal? id = (some e, { p with cursor := c }) := by
  unfold read
  split
  · next v c hrun => exact .inl ⟨v, c, hrun, rfl⟩
  · next e c hrun => exact .inr ⟨e, c, hrun, rfl⟩
  · next hrun => exact absurd hrun (enough _ _)

/-- An answer goes on behind what the phrase has read, or carries the error it failed with. -/
theorem answer_cases (p : Parser σ) (request : Request) :
    (∃ v c, (request.phrase.parse (bound p.cursor)).run p.context p.cursor = .done v c ∧
      p.answer request = (none, { p with cursor := c })) ∨
    ∃ e c, (request.phrase.parse (bound p.cursor)).run p.context p.cursor = .failed e c ∧
      p.answer request = (some e, { p with cursor := c }) := by
  cases request <;> exact p.read_cases _ (Request.enough _)

/-- A refusal says what stands where the parser stops. -/
theorem refuses_answer {p : Parser σ} {request : Request} {e : ParseError σ}
    (h : (p.answer request).1 = some e) :
    Refuses p.context p.cursor e (p.answer request).2.cursor := by
  have hgrounded : request.phrase.Grounded p.context p.cursor := by cases request <;> trivial
  obtain ⟨v, c, hrun, hanswer⟩ | ⟨e', c, hrun, hanswer⟩ := p.answer_cases request
  · rw [hanswer] at h
    cases h
  · rw [hanswer] at h ⊢
    cases h
    exact refuses (bound p.cursor) _ request.enters hgrounded hrun

/-! ## where a session can get -/

/-- A request moves the cursor past valid tokens only, and changes nothing else. -/
theorem crosses_answer (p : Parser σ) (request : Request) :
    (p.answer request).2.context = p.context ∧ p.cursor.Crosses (p.answer request).2.cursor := by
  have hcross := request.crosses (bound p.cursor) p.context p.cursor
  obtain ⟨v, c, hrun, hanswer⟩ | ⟨e, c, hrun, hanswer⟩ := p.answer_cases request
  · rw [hrun] at hcross
    rw [hanswer]
    exact ⟨rfl, hcross⟩
  · rw [hrun] at hcross
    rw [hanswer]
    exact ⟨rfl, hcross⟩

/-- So does a session. -/
theorem crosses_session (p : Parser σ) (requests : List Request) :
    (p.session requests).context = p.context ∧ p.cursor.Crosses (p.session requests).cursor := by
  induction requests generalizing p with
  | nil => exact ⟨rfl, .refl p.cursor⟩
  | cons request requests ih =>
    obtain ⟨hcontext, hcross⟩ := p.crosses_answer request
    obtain ⟨hcontext', hcross'⟩ := ih (p.answer request).2
    exact ⟨hcontext'.trans hcontext, hcross.trans hcross'⟩

end Parser

end CallGrammar
