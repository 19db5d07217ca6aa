import CallGrammar.ParseError
import CallGrammar.Ast
import CallGrammar.StatementCalls

/-!
# CallGrammar.Cursor

Reading a token vector from left to right.  A `Cursor` is a position in the
vector; a `Parse` moves the cursor to the right and gives a value, or stops with
an error and leaves the cursor where the error was found.

A `Parse` asks four things about the token under the cursor: its kind, the kind
of the next token that is no line break, whether it touches the token before
it, and its place.  It has no access to tokens further on, and places are only
ever joined.
-/

namespace CallGrammar

/-- A position in a token vector: the tokens to the left of it, last first, and
those to the right. -/
structure Cursor (σ : Type) where
  passed : List (Token σ)
  ahead : List (Token σ)
  deriving DecidableEq

namespace Cursor

variable {σ : Type}

/-- The position before the first token. -/
def start (tokens : List (Token σ)) : Cursor σ := ⟨[], tokens⟩

/-- The number of tokens to the left. -/
def position (c : Cursor σ) : Nat := c.passed.length

/-- The whole vector. -/
def tokens (c : Cursor σ) : List (Token σ) := c.passed.reverse ++ c.ahead

/-- The position one token further on, unless the input ends here. -/
def next : Cursor σ → Cursor σ
  | ⟨passed, t :: ahead⟩ => ⟨t :: passed, ahead⟩
  | ⟨passed, []⟩ => ⟨passed, []⟩

/-- The first position from here on whose token is not of the kinds `p`. -/
def skip (p : Kind → Bool) (c : Cursor σ) : Cursor σ :=
  ⟨(c.ahead.takeWhile (p ·.kind)).reverse ++ c.passed, c.ahead.dropWhile (p ·.kind)⟩

/-- The kind of the token under the cursor; `none` at the end of the input. -/
def kind? (c : Cursor σ) : Option Kind := c.ahead.head?.map (·.kind)

/-- Whether the token under the cursor touches the one before it. -/
def touching (c : Cursor σ) : Bool := (c.ahead.head?.map (·.touching)).getD false

/-- The place of the token under the cursor, or `finish` at the end. -/
def place (finish : σ) (c : Cursor σ) : σ := (c.ahead.head?.map (·.span)).getD finish

/-- The place that reaches from `first` to the last token passed. -/
def since [Location σ] (first : σ) (c : Cursor σ) : σ :=
  match c.passed with
  | [] => first
  | t :: _ => Location.merge first t.span

/-- The position after the line breaks from here on. -/
def skipNewlines (c : Cursor σ) : Cursor σ := c.skip (· == .newline)

/-- The position after the line breaks and semicolons from here on. -/
def skipSeparators (c : Cursor σ) : Cursor σ :=
  c.skip fun k => k == .newline || k == .symbol .semicolon

end Cursor

/-! ## outcomes -/

/-- How reading a piece of the vector ends. -/
inductive Outcome (σ α : Type) where
  /-- With a value, and the position after the piece. -/
  | done (value : α) (cursor : Cursor σ)
  /-- With an error, and the position where it was found. -/
  | failed (error : ParseError σ) (cursor : Cursor σ)
  /-- The bound on nested calls was reached before an answer was found. -/
  | exhausted

/-- What stays the same while a vector is read: the place of the end of the
input, and the functions that take several arguments without parentheses. -/
structure Context (σ : Type) where
  finish : σ
  calls : StatementCalls

/-- A way to read a piece of a token vector. -/
@[ext]
structure Parse (σ α : Type) where
  run : Context σ → Cursor σ → Outcome σ α

namespace Parse

variable {σ α β γ : Type}

/-- Read nothing. -/
def done (value : α) : Parse σ α := ⟨fun _ c => .done value c⟩

/-- Read one piece, then the piece that its value asks for. -/
def andThen (p : Parse σ α) (q : α → Parse σ β) : Parse σ β := ⟨fun context c =>
  match p.run context c with
  | .done value c => (q value).run context c
  | .failed error c => .failed error c
  | .exhausted => .exhausted⟩

instance : Monad (Parse σ) where
  pure := done
  bind := andThen

/-- Stop with an error. -/
def fail (error : ParseError σ) : Parse σ α := ⟨fun _ c => .failed error c⟩

/-- Stop because the bound on nested calls was reached. -/
def exhausted : Parse σ α := ⟨fun _ _ => .exhausted⟩

/-! ## looking -/

/-- The kind of the token under the cursor. -/
def peek : Parse σ (Option Kind) := ⟨fun _ c => .done c.kind? c⟩

/-- The kind of the first token from the cursor on that is no line break. -/
def peekPastNewlines : Parse σ (Option Kind) := ⟨fun _ c =>
  .done c.skipNewlines.kind? c⟩

/-- Whether the token under the cursor touches the one before it. -/
def touching : Parse σ Bool := ⟨fun _ c => .done c.touching c⟩

/-- The place of the token under the cursor, or of the end of the input. -/
def place : Parse σ σ := ⟨fun context c => .done (c.place context.finish) c⟩

/-- The place that reaches from `first` to the last token passed. -/
def since [Location σ] (first : σ) : Parse σ σ := ⟨fun _ c => .done (c.since first) c⟩

/-- Whether `name` takes several arguments without parentheses. -/
def takesArguments (name : String) : Parse σ Bool := ⟨fun context c =>
  .done (decide (name ∈ context.calls)) c⟩

/-! ## moving -/

/-- Go past the token under the cursor. -/
def advance : Parse σ Unit := ⟨fun _ c => .done () c.next⟩

def skipNewlines : Parse σ Unit := ⟨fun _ c => .done () c.skipNewlines⟩

/-- Go past line breaks and semicolons. -/
def skipSeparators : Parse σ Unit := ⟨fun _ c => .done () c.skipSeparators⟩

/-! ## asking for a token -/

/-- Stop because the token under the cursor is not what was asked for. -/
def unexpected (expected : Expectation) : Parse σ α := do
  fail (.unexpected expected (← peek) (← place))

/-- Stop because of the comma under the cursor. -/
def strayComma : Parse σ α := do
  fail (.strayComma (← place))

/-- Go past a token of kind `kind` and give its place. -/
def expect (kind : Kind) (expected : Expectation) : Parse σ σ := do
  let found ← peek
  if found = some kind then
    let here ← place
    advance
    pure here
  else unexpected expected

/-- Go past a symbol and give its place. -/
def symbol (s : Symbol) : Parse σ σ := expect (.symbol s) (.symbol s)

/-- Go past the closer of a construct that was opened at `opener`. -/
def close (construct : Construct) (opener : σ) : Parse σ σ := do
  match ← peek with
  | none => fail (.unterminated construct opener)
  | some _ => symbol construct.closer

/-- Go past a name. -/
def name (expected : Expectation) : Parse σ (Ident σ) := do
  match ← peek with
  | some (.name text) =>
    let here ← place
    advance
    pure ⟨text, here⟩
  | _ => unexpected expected

/-! ## what each step does -/

/-- A parser goes on where the first one stopped. -/
theorem run_bind (p : Parse σ α) (q : α → Parse σ β) (context : Context σ) (c : Cursor σ) :
    (p >>= q).run context c =
      match p.run context c with
      | .done value c => (q value).run context c
      | .failed error c => .failed error c
      | .exhausted => .exhausted := rfl

/-- How parsers are grouped does not matter. -/
theorem run_bind_assoc (p : Parse σ α) (q : α → Parse σ β) (r : β → Parse σ γ)
    (context : Context σ) (c : Cursor σ) :
    (p >>= q >>= r).run context c = (p >>= fun v => q v >>= r).run context c := by
  simp only [run_bind]
  cases p.run context c <;> rfl

/-- Two readings that begin alike end alike if what they do then ends alike. -/
theorem run_bind_congr {p : Parse σ α} {q r : α → Parse σ β} {context : Context σ} {c : Cursor σ}
    (h : ∀ v d, p.run context c = .done v d → (q v).run context d = (r v).run context d) :
    (p >>= q).run context c = (p >>= r).run context c := by
  rw [run_bind, run_bind]
  cases hrun : p.run context c with
  | done v d => exact h v d hrun
  | failed => rfl
  | exhausted => rfl

@[simp] theorem run_pure (v : α) (context : Context σ) (c : Cursor σ) :
    (pure v : Parse σ α).run context c = .done v c := rfl

@[simp] theorem run_fail (e : ParseError σ) (context : Context σ) (c : Cursor σ) :
    (fail e : Parse σ α).run context c = .failed e c := rfl

@[simp] theorem run_peek_bind (q : Option Kind → Parse σ β) (context : Context σ) (c : Cursor σ) :
    (peek >>= q).run context c = (q c.kind?).run context c := rfl

@[simp] theorem run_peekPastNewlines_bind (q : Option Kind → Parse σ β) (context : Context σ)
    (c : Cursor σ) :
    (peekPastNewlines >>= q).run context c = (q c.skipNewlines.kind?).run context c := rfl

@[simp] theorem run_touching_bind (q : Bool → Parse σ β) (context : Context σ) (c : Cursor σ) :
    (touching >>= q).run context c = (q c.touching).run context c := rfl

@[simp] theorem run_place_bind (q : σ → Parse σ β) (context : Context σ) (c : Cursor σ) :
    (place >>= q).run context c = (q (c.place context.finish)).run context c := rfl

@[simp] theorem run_since_bind [Location σ] (first : σ) (q : σ → Parse σ β) (context : Context σ)
    (c : Cursor σ) : (since first >>= q).run context c = (q (c.since first)).run context c := rfl

@[simp] theorem run_takesArguments_bind (name : String) (q : Bool → Parse σ β)
    (context : Context σ) (c : Cursor σ) :
    (takesArguments name >>= q).run context c = (q (decide (name ∈ context.calls))).run context c := rfl

@[simp] theorem run_advance_bind (q : Unit → Parse σ β) (context : Context σ) (c : Cursor σ) :
    (advance >>= q).run context c = (q ()).run context c.next := rfl

@[simp] theorem run_skipNewlines_bind (q : Unit → Parse σ β) (context : Context σ) (c : Cursor σ) :
    (skipNewlines >>= q).run context c = (q ()).run context c.skipNewlines := rfl

@[simp] theorem run_skipSeparators_bind (q : Unit → Parse σ β) (context : Context σ)
    (c : Cursor σ) :
    (skipSeparators >>= q).run context c = (q ()).run context c.skipSeparators := rfl

@[simp] theorem run_pure_bind (v : α) (q : α → Parse σ β) (context : Context σ) (c : Cursor σ) :
    ((pure v : Parse σ α) >>= q).run context c = (q v).run context c := rfl

@[simp] theorem run_fail_bind (e : ParseError σ) (q : α → Parse σ β) (context : Context σ)
    (c : Cursor σ) : ((fail e : Parse σ α) >>= q).run context c = .failed e c := rfl

@[simp] theorem run_unexpected (e : Expectation) (context : Context σ) (c : Cursor σ) :
    (unexpected e : Parse σ α).run context c
      = .failed (.unexpected e c.kind? (c.place context.finish)) c := rfl

@[simp] theorem run_strayComma (context : Context σ) (c : Cursor σ) :
    (strayComma : Parse σ α).run context c = .failed (.strayComma (c.place context.finish)) c := rfl

@[simp] theorem run_unexpected_bind (e : Expectation) (q : α → Parse σ β) (context : Context σ)
    (c : Cursor σ) :
    ((unexpected e : Parse σ α) >>= q).run context c
      = .failed (.unexpected e c.kind? (c.place context.finish)) c := rfl

@[simp] theorem run_strayComma_bind (q : α → Parse σ β) (context : Context σ) (c : Cursor σ) :
    ((strayComma : Parse σ α) >>= q).run context c
      = .failed (.strayComma (c.place context.finish)) c := rfl

/-- The expected token is passed, and its place is the result. -/
theorem run_expect_of_eq {kind : Kind} {context : Context σ} {c : Cursor σ}
    (h : c.kind? = some kind) (expected : Expectation) :
    (expect kind expected).run context c = .done (c.place context.finish) c.next := by
  rw [expect, run_peek_bind, if_pos h]
  rfl

/-- Another token is reported where it stands. -/
theorem run_expect_of_ne {kind : Kind} {context : Context σ} {c : Cursor σ}
    (h : c.kind? ≠ some kind) (expected : Expectation) :
    (expect kind expected).run context c
      = .failed (.unexpected expected c.kind? (c.place context.finish)) c := by
  rw [expect, run_peek_bind, if_neg h, run_unexpected]

end Parse

end CallGrammar
