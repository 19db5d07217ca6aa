import CallGrammar.Proofs.Reading.Complete
import CallGrammar.Proofs.Reading.Continues
import CallGrammar.Proofs.SpanTree

/-!
# CallGrammar.Proofs.Selection

A span selects exactly its part of the tree.  The tokens of a source that lie within the
span of a statement, an expression or a lambda, read on their own, give that part again,
with the same spans and nothing left.
-/

namespace CallGrammar

/-! ## the tokens of a span -/

namespace Token

/-- The tokens that lie within a span, as a vector of their own: the first one has nothing
before it that it could touch. -/
def within (s : Span) (ts : List (Token Span)) : List (Token Span) :=
  retouch false (ts.filter fun t => s.start ≤ t.span.start && t.span.stop ≤ s.stop)

variable {s : Span} {front us back : List (Token Span)}

/-- Of tokens in order, those within the span of a run are the run. -/
theorem within_eq (hs : Sorted (front ++ (us ++ back))) (h : Covers s us) :
    within s (front ++ (us ++ back)) = retouch false us := by
  have hus : Sorted us := hs.right.left
  have hinside : us.filter (fun t => s.start ≤ t.span.start && t.span.stop ≤ s.stop) = us :=
    List.filter_eq_self.2 fun t ht => by
      obtain ⟨hstart, hstop⟩ := h.bounds hus ht
      simp [hstart, hstop]
  obtain ⟨first, last, hfirst, hlast, rfl⟩ := h
  have hfirst : first ∈ us := List.mem_of_head? hfirst
  have hlast : last ∈ us := List.mem_of_getLast? hlast
  have hfront : front.filter (fun t => first.span.start ≤ t.span.start
      && t.span.stop ≤ last.span.stop) = [] :=
    List.filter_eq_nil_iff.2 fun t ht => by
      have hle := hs.stop_le_start ht (List.mem_append_left back hfirst)
      have hlt := hs.nonempty t (List.mem_append_left _ ht)
      have hout : ¬ first.span.start ≤ t.span.start := by omega
      simp [hout]
  have hback : back.filter (fun t => first.span.start ≤ t.span.start
      && t.span.stop ≤ last.span.stop) = [] :=
    List.filter_eq_nil_iff.2 fun t ht => by
      have hle := hs.right.stop_le_start hlast ht
      have hlt := hs.right.nonempty t (List.mem_append_right us ht)
      have hout : ¬ t.span.stop ≤ last.span.stop := by omega
      simp [hout]
  rw [within, List.filter_append, List.filter_append, hfront, hinside, hback, List.nil_append,
    List.append_nil]

/-- Which tokens touch the one before makes no difference to their order. -/
theorem sorted_retouch {ts : List (Token Span)} (b : Bool) (h : Sorted ts) :
    Sorted (retouch b ts) := by
  cases ts with
  | nil => exact h
  | cons t ts =>
    constructor
    · intro u hu
      obtain rfl | hu := List.mem_cons.1 hu
      · exact h.nonempty t List.mem_cons_self
      · exact h.tail.nonempty u hu
    · exact List.pairwise_cons.2 (List.pairwise_cons.1 h.ordered)

end Token

/-! ## reading a part on its own -/

/-- A parser before some tokens that gives the part: with the reader for its kind, which
is that of source units for a statement, and with nothing left. -/
def Parser.Gives (p : Parser Span) : Subtree Span → Prop
  | .expr e => p.expression.1 = .ok e ∧ p.expression.2.cursor.ahead = []
  | .lambda l => p.lambda.1 = .ok l ∧ p.lambda.2.cursor.ahead = []
  | .stmt s => p.program.1 = .ok ⟨⟨s.span, [s]⟩⟩ ∧ p.program.2.cursor.ahead = []
  | .ident _ | .block _ => True

/-- The part is the conditional that an `elsif` begins: no statement on its own. -/
def Subtree.IsElsif (ts : List (Token Span)) : Subtree Span → Prop
  | .stmt s => headKind (Token.within s.span ts) = some (.keyword .elsifWord)
  | .ident _ | .expr _ | .lambda _ | .block _ => False

section

variable {context : Context Span} {ts : List (Token Span)}

/-- One statement that is a whole vector is a source unit of that span. -/
theorem Reads.program_single {s : Stmt Span} (hs : Sorted ts)
    (h : Reads context .statement ts [] s) :
    Reads context .program ts [] ⟨⟨s.span, [s]⟩⟩ := by
  have hspan : through ((Cursor.start ts).place context.finish) ts = s.span := by
    obtain ⟨t, us, rfl, -⟩ : BeginsWith beginsStatement ts := h.opens
    exact (Covers.whole hs).unique (h.extends hs)
  rw [← hspan]
  exact .program (.statements_single h) (List.cons_ne_nil s [])

/-- What derives a part gives it, also where nothing stands before. -/
theorem Subtree.Whole.gives {n : Subtree Span} {p : Parser Span} (h : n.Whole p.context ts)
    (hs : Sorted ts) (hahead : p.cursor.ahead = Token.retouch false ts)
    (helsif : ∀ s, n = .stmt s → headKind ts ≠ some (.keyword .elsifWord)) : p.Gives n := by
  cases n with
  | ident => trivial
  | block => trivial
  | expr e =>
    have hexpression : Reads p.context (.expression 0) ts [] e := h
    exact Parser.read_of_reads (hahead ▸ hexpression.retouch false trivial)
  | lambda l =>
    have hlambda : Reads p.context .lambda ts [] l := h
    exact Parser.read_of_reads (hahead ▸ hlambda.retouch false trivial)
  | stmt s =>
    have hstmt : Reads p.context .statement ts [] s := h.resolve_right (helsif s rfl)
    have hprogram := (hstmt.retouch false trivial).program_single (Token.sorted_retouch false hs)
    exact Parser.read_of_reads (hahead ▸ hprogram)

end

/-! ## sources -/

/-- **Selection**: the tokens within the span of a part of the tree, read on their own, give
that part. -/
theorem gives_of_has {calls : StatementCalls} {source : String} {p : Program Span}
    {n : Subtree Span} (h : parse calls source = .ok p) (hn : p.Has n)
    (helsif : ¬ n.IsElsif (Token.significant (Token.ofText source))) :
    Parser.Gives ⟨(Parser.ofSource calls source).context,
      .start (Token.within n.span (Token.significant (Token.ofText source)))⟩ n := by
  have hs := Token.sorted_significant source
  obtain ⟨us, ⟨front, back, htokens⟩, hplanted⟩ := planted_of_has h hn
  rw [List.append_assoc] at htokens
  rw [← htokens] at hs helsif ⊢
  rw [Token.within_eq hs hplanted.covers]
  refine Subtree.Whole.gives hplanted.whole hs.right.left rfl ?_
  rintro s rfl hhead
  refine helsif ?_
  change headKind (Token.within (Subtree.stmt s).span _) = _
  rw [Token.within_eq hs hplanted.covers, Token.headKind_retouch]
  exact hhead

/-- The left operand of what is assigned, in a source unit that is one assignment. -/
def assignedLeft? : Program Span → Option (Expr Span)
  | ⟨⟨_, [.assign _ _ (.binary _ _ left _)]⟩⟩ => some left
  | _ => none

/-- The target that `assignedLeft?` finds is an expression of the program. -/
theorem has_of_assignedLeft? {p : Program Span} {left : Expr Span}
    (h : assignedLeft? p = some left) : p.Has (.expr left) := by
  unfold assignedLeft? at h
  split at h
  · next place whole target span op left' right =>
    cases h
    have hvalue : Subtree.expr (.binary span op left right)
        ∈ (Subtree.stmt (.assign whole target (.binary span op left right))).children :=
      List.mem_cons_of_mem _ (List.mem_singleton_self _)
    exact ⟨_, List.mem_singleton_self _, .child hvalue (.child List.mem_cons_self (.here _))⟩
  · cases h

/-- The left operand of a product, with its parentheses. -/
theorem gives_of_has_operand : ∃ p n, parse .default "$x = ($y) * 2" = .ok p ∧ p.Has n ∧
    n.span = ⟨5, 9⟩ ∧ ¬ n.IsElsif (Token.significant (Token.ofText "$x = ($y) * 2")) ∧
    Parser.Gives ⟨(Parser.ofSource .default "$x = ($y) * 2").context,
      .start (Token.within n.span (Token.significant (Token.ofText "$x = ($y) * 2")))⟩ n := by
  have hspan : (parse .default "$x = ($y) * 2").toOption.bind
      (fun p => (assignedLeft? p).map Expr.span) = some ⟨5, 9⟩ := by decide +kernel
  cases hp : parse .default "$x = ($y) * 2" with
  | error e =>
    rw [hp] at hspan
    cases hspan
  | ok p =>
    rw [hp] at hspan
    obtain ⟨left, hleft, hspan⟩ := Option.map_eq_some_iff.1 hspan
    have hhas := has_of_assignedLeft? hleft
    exact ⟨p, .expr left, rfl, hhas, hspan, id, gives_of_has hp hhas id⟩

end CallGrammar
