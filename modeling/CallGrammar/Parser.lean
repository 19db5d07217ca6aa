import CallGrammar.Grammar.Fuel
import CallGrammar.Token.Stream

/-!
# CallGrammar.Parser

Reading a source text phrase by phrase.  A `Parser` stands somewhere in the
significant tokens of a source; each reading of a phrase gives a tree or an
error, and the parser that stands after the phrase or where the error was found.
Every reading has an answer: the bound it is given on nested calls is enough.
-/

namespace CallGrammar

/-- A token vector being read. -/
structure Parser (σ : Type) where
  context : Context σ
  cursor : Cursor σ

namespace Parser

/-- The parser before the first token of a source, whose comments it skips. -/
def ofSource (calls : StatementCalls) (source : String) : Parser Span where
  context := ⟨⟨source.utf8ByteSize, source.utf8ByteSize⟩, calls⟩
  cursor := .start (Token.significant (Token.ofText source))

variable {σ α : Type}

/-- A bound on nested calls that is enough to read any phrase at `c`. -/
def bound (c : Cursor σ) : Nat := 8 * c.ahead.length + 8

/-- Read a phrase for which the bound is enough. -/
def read (p : Parser σ) (phrase : Nat → Parse σ α)
    (enough : ∀ context c, (phrase (bound c)).run context c ≠ .exhausted) :
    Except (ParseError σ) α × Parser σ :=
  match h : (phrase (bound p.cursor)).run p.context p.cursor with
  | .done value c => (.ok value, { p with cursor := c })
  | .failed error c => (.error error, { p with cursor := c })
  | .exhausted => absurd h (enough _ _)

variable [Location σ]

/-- Read everything up to the end of the input as a source unit. -/
def program (p : Parser σ) : Except (ParseError σ) (Program σ) × Parser σ :=
  p.read Grammar.program fun context c =>
    (Grammar.program_within _ context c (Nat.le_refl _)).ne_exhausted

/-- Read an expression. -/
def expression (p : Parser σ) : Except (ParseError σ) (Expr σ) × Parser σ :=
  p.read (Grammar.expression 0) fun context c =>
    (Grammar.expression_within 0 _ context c (by unfold bound; omega)).ne_exhausted

/-- Read a lambda. -/
def lambda (p : Parser σ) : Except (ParseError σ) (Lambda σ) × Parser σ :=
  p.read Grammar.lambda fun context c =>
    (Grammar.lambda_within _ context c (by unfold bound; omega)).ne_exhausted

/-- Read an argument list in parentheses. -/
def arguments (p : Parser σ) : Except (ParseError σ) (List (Expr σ)) × Parser σ :=
  p.read Grammar.arguments fun context c =>
    (Grammar.arguments_within _ context c (by unfold bound; omega)).ne_exhausted

/-- Read an argument list without parentheses. -/
def bareArguments (p : Parser σ) : Except (ParseError σ) (List (Expr σ)) × Parser σ :=
  p.read Grammar.bareArguments fun context c =>
    (Grammar.bareArguments_within _ context c (by unfold bound; omega)).ne_exhausted

/-- Read a name in statement position with all that belongs to it. -/
def callable (p : Parser σ) : Except (ParseError σ) (Grammar.Callable σ) × Parser σ :=
  p.read Grammar.callable fun context c =>
    (Grammar.callable_within _ context c (by unfold bound; omega)).ne_exhausted

/-- Read a name in expression position: a call, or a bare word. -/
def callOrWord (p : Parser σ) : Except (ParseError σ) (Expr σ) × Parser σ :=
  p.read Grammar.callOrWord fun context c =>
    (Grammar.callOrWord_within _ context c (by unfold bound; omega)).ne_exhausted

end Parser

/-- The tree of a whole source. -/
def parse (calls : StatementCalls) (source : String) :
    Except (ParseError Span) (Program Span) :=
  (Parser.ofSource calls source).program.1

end CallGrammar
