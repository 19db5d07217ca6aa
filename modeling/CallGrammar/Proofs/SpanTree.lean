import CallGrammar.Proofs.Subtree.Planted
import CallGrammar.Proofs.Reading.Sound

/-!
# CallGrammar.Proofs.SpanTree

Spans form a tree.  Every part of the tree of a source reaches from the start of one token
to the end of another; a part lies within the part it belongs to, and behind the parts of
it that come before.
-/

namespace CallGrammar

/-! ## parts at their places -/

/-- The part begins where a token does and ends where a token does, is not empty, and holds
its children one after the other. -/
structure Subtree.Placed (ts : List (Token Span)) (n : Subtree Span) : Prop where
  starts : ∃ t ∈ ts, n.span.start = t.span.start
  stops : ∃ t ∈ ts, n.span.stop = t.span.stop
  nonempty : n.span.start < n.span.stop
  inside : ∀ c ∈ n.children, n.span.start ≤ c.span.start ∧ c.span.stop ≤ n.span.stop
  ordered : n.children.Pairwise fun a b => a.span.stop ≤ b.span.start

section

variable {context : Context Span} {a b : Span} {ts us : List (Token Span)} {n c : Subtree Span}
  {ns : List (Subtree Span)}

/-- Some of the tokens span no more than all of them. -/
theorem Covers.mono (hs : Sorted ts) (h : Covers a ts) (hsub : us <:+: ts) (h' : Covers b us) :
    a.start ≤ b.start ∧ b.stop ≤ a.stop := by
  obtain ⟨t, u, ht, hu, rfl⟩ := h'
  have ht : t ∈ ts := hsub.subset (List.mem_of_head? ht)
  have hu : u ∈ ts := hsub.subset (List.mem_of_getLast? hu)
  exact ⟨(h.bounds hs ht).1, (h.bounds hs hu).2⟩

/-- What stands on a run behind others begins behind them. -/
theorem Covers.stop_le_start (hs : Sorted (ts ++ us)) (h : Covers a ts) (h' : Covers b us) :
    a.stop ≤ b.start := by
  obtain ⟨-, u, -, hu, rfl⟩ := h
  obtain ⟨t, -, ht, -, rfl⟩ := h'
  exact hs.stop_le_start (List.mem_of_getLast? hu) (List.mem_of_head? ht)

/-- The parts of a node are disjoint, in the order of the text. -/
theorem Laid.pairwise (h : Laid context ts ns) (hs : Sorted ts) :
    ns.Pairwise fun a b => a.span.stop ≤ b.span.start := by
  induction ns generalizing ts with
  | nil => exact .nil
  | cons n ns ih =>
    cases h with
    | @cons _ _ us vs gap first rest =>
      refine List.pairwise_cons.2 ⟨fun c hc => ?_, ih rest hs.right.right⟩
      obtain ⟨ws, ⟨front, back, hvs⟩, hplanted⟩ := rest.planted_of_mem hc
      have hsub : (us ++ ws).Sublist (us ++ vs) := by
        rw [← hvs]
        exact (List.infix_append front ws back).sublist.append_left us
      exact first.covers.stop_le_start (hs.right.of_sublist hsub) hplanted.covers

/-- A part that stands on some of the tokens is in its place among them. -/
theorem Planted.placed (h : Planted context us n) (hsub : us <:+: ts) (hs : Sorted ts) :
    n.Placed ts := by
  have hus : Sorted us := hs.of_sublist hsub.sublist
  obtain ⟨t, u, ht, hu, hspan⟩ := h.covers
  have htmem : t ∈ us := List.mem_of_head? ht
  have humem : u ∈ us := List.mem_of_getLast? hu
  refine ⟨⟨t, hsub.subset htmem, by rw [hspan]⟩, ⟨u, hsub.subset humem, by rw [hspan]⟩,
    h.covers.nonempty hus, fun c hc => ?_, h.laid.pairwise hus⟩
  obtain ⟨vs, hvs, hplanted⟩ := h.laid.planted_of_mem hc
  exact h.covers.mono hus hvs hplanted.covers

end

/-! ## sources -/

variable {calls : StatementCalls} {source : String} {p : Program Span} {n : Subtree Span}

/-- The statements of a source stand on its tokens. -/
theorem laid_of_parse (h : parse calls source = .ok p) :
    Laid (Parser.ofSource calls source).context (Token.significant (Token.ofText source))
      (p.body.stmts.map .stmt) :=
  (reads_of_parse h).plants (Token.sorted_significant source)

/-- Every part of the tree of a source stands on a run of its tokens. -/
theorem planted_of_has (h : parse calls source = .ok p) (hn : p.Has n) :
    ∃ us, us <:+: Token.significant (Token.ofText source) ∧
      Planted (Parser.ofSource calls source).context us n := by
  obtain ⟨s, hs, hn⟩ := hn
  obtain ⟨us, hus, hstmt⟩ := (laid_of_parse h).planted_of_mem (List.mem_map_of_mem hs)
  obtain ⟨vs, hvs, hplanted⟩ := hstmt.of_contains hn
  exact ⟨vs, hvs.trans hus, hplanted⟩

/-- A source unit that is not empty reaches from its first token to its last one. -/
theorem covers_of_parse (h : parse calls source = .ok p) (hne : p.body.stmts ≠ []) :
    Covers p.body.span (Token.significant (Token.ofText source)) := by
  have hs := Token.sorted_significant source
  have hreads := reads_of_parse h
  generalize Token.significant (Token.ofText source) = ts at hs hreads
  cases hreads with
  | noProgram => exact absurd rfl hne
  | program hstmts =>
    cases ts with
    | nil => exact absurd rfl (hstmts.ne_nil_of_statements hne)
    | cons t ts => exact .whole hs

/-- **Span tree**: all parts of the tree of a source are in their places, and a source unit
that is not empty reaches from the first token to the last. -/
theorem placed_of_parse (h : parse calls source = .ok p) :
    (∀ n, p.Has n → n.Placed (Token.significant (Token.ofText source))) ∧
    (p.body.stmts ≠ [] → Covers p.body.span (Token.significant (Token.ofText source)) ∧
      (Subtree.block p.body).Placed (Token.significant (Token.ofText source))) := by
  have hs := Token.sorted_significant source
  refine ⟨fun n hn => ?_, fun hne => ⟨covers_of_parse h hne, ?_⟩⟩
  · obtain ⟨us, hus, hplanted⟩ := planted_of_has h hn
    exact hplanted.placed hus hs
  · have hbody : Planted (Parser.ofSource calls source).context _ (.block p.body) :=
      .intro trivial (covers_of_parse h hne) (laid_of_parse h)
    exact hbody.placed List.infix_rfl hs

/-- The conditional after an `elsif`, in the branch of another one. -/
theorem placed_of_parse_elsif : ∃ p, parse .default "if a \x7b\x7d elsif f(b) \x7b\x7d" = .ok p ∧
    (∀ n, p.Has n →
      n.Placed (Token.significant (Token.ofText "if a \x7b\x7d elsif f(b) \x7b\x7d"))) ∧
    (p.body.stmts ≠ [] → Covers p.body.span
        (Token.significant (Token.ofText "if a \x7b\x7d elsif f(b) \x7b\x7d")) ∧
      (Subtree.block p.body).Placed
        (Token.significant (Token.ofText "if a \x7b\x7d elsif f(b) \x7b\x7d"))) := by
  have hok : (parse .default "if a \x7b\x7d elsif f(b) \x7b\x7d").isOk = true := by
    decide +kernel
  obtain ⟨p, hp⟩ := exists_of_isOk hok
  exact ⟨p, hp, placed_of_parse hp⟩

end CallGrammar
