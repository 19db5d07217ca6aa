import CallGrammar.Parser
import CallGrammar.Proofs.Lockstep

/-!
# CallGrammar.Proofs.StatementCalls

What the set of statement calls can change.  A larger set accepts every source
that a smaller one accepts, with the same tree, and the two agree on a refusal
unless it names a function that only the larger set has.
-/

namespace CallGrammar

variable {σ α : Type}

/-! ## readings with their bound -/

namespace Parser

/-- A reading that succeeds is the answer, and the cursor stands behind it. -/
theorem read_of_done {p : Parser σ} {phrase : Nat → Parse σ α}
    {enough : ∀ context c, (phrase (bound c)).run context c ≠ .exhausted} {v : α} {c : Cursor σ}
    (h : (phrase (bound p.cursor)).run p.context p.cursor = .done v c) :
    p.read phrase enough = (.ok v, { p with cursor := c }) := by
  unfold read
  split <;> simp_all

/-- A reading that fails is the answer, and the cursor stands where it failed. -/
theorem read_of_failed {p : Parser σ} {phrase : Nat → Parse σ α}
    {enough : ∀ context c, (phrase (bound c)).run context c ≠ .exhausted} {e : ParseError σ}
    {c : Cursor σ} (h : (phrase (bound p.cursor)).run p.context p.cursor = .failed e c) :
    p.read phrase enough = (.error e, { p with cursor := c }) := by
  unfold read
  split <;> simp_all

end Parser

/-- Two readings of a whole source unit: the second ends after the first. -/
theorem Lockstep.program_result {σ τ : Type} [Location σ] [Location τ] (s : Lockstep σ τ)
    {p : Parser σ} {q : Parser τ} (hp : p.context = s.first) (hq : q.context = s.second)
    (hc : p.cursor.Alike s.move q.cursor) :
    (∃ v, p.program.1 = .ok v ∧ q.program.1 = .ok (v.map s.move)) ∨
      ∃ e, p.program.1 = .error e ∧ (s.Pardoned e ∨ q.program.1 = .error (e.map s.move)) := by
  have hbound : Parser.bound q.cursor = Parser.bound p.cursor := by
    rw [Parser.bound, Parser.bound, hc.2.length_eq]
  have hfollows : s.After (Program.map s.move)
      ((Grammar.program (Parser.bound p.cursor)).run p.context p.cursor)
      ((Grammar.program (Parser.bound q.cursor)).run q.context q.cursor) := by
    have henters : (Phrase.program : Phrase σ).Enters .token none := rfl
    rw [hp, hq, hbound]
    exact s.follows (Nat.le_refl (Parser.bound p.cursor)) _ henters p.cursor q.cursor hc nofun
  cases hrun : (Grammar.program (Parser.bound p.cursor)).run p.context p.cursor with
  | done v c =>
    rw [hrun] at hfollows
    obtain ⟨d, hd, -⟩ := hfollows
    left
    exact ⟨v, congrArg Prod.fst (Parser.read_of_done hrun),
      congrArg Prod.fst (Parser.read_of_done hd)⟩
  | failed e c =>
    rw [hrun] at hfollows
    right
    refine ⟨e, congrArg Prod.fst (Parser.read_of_failed hrun), ?_⟩
    obtain hpardoned | ⟨d, hd, -⟩ := hfollows
    · exact .inl hpardoned
    · exact .inr (congrArg Prod.fst (Parser.read_of_failed hd))
  | exhausted =>
    have henough := Grammar.program_within _ p.context p.cursor (Nat.le_refl _)
    exact absurd hrun henough.ne_exhausted

/-! ## more statement calls -/

/-- A source with two sets of statement calls, one in the other. -/
def Lockstep.extend (finish : Span) {fewer more : StatementCalls}
    (h : ∀ name, name ∈ fewer → name ∈ more) : Lockstep Span Span where
  move := id
  first := ⟨finish, fewer⟩
  second := ⟨finish, more⟩
  merge _ _ := rfl
  finish := rfl
  calls := h

/-- **Monotonicity**: with more statement calls a source is read as before, with
the same places, unless it was refused for a name that is new. -/
theorem parse_eq_or_needsParentheses (source : String) {fewer more : StatementCalls}
    (h : ∀ name, name ∈ fewer → name ∈ more) :
    (parse fewer source = parse more source ∨
      ∃ name span, parse fewer source = .error (.needsParentheses name span) ∧
        name ∈ more ∧ name ∉ fewer) ∧
    ∀ p, parse fewer source = .ok p → parse more source = .ok p := by
  have hc := Cursor.alike_id (Parser.ofSource fewer source).cursor
  have hresult := (Lockstep.extend _ h).program_result
    (p := Parser.ofSource fewer source) (q := Parser.ofSource more source) rfl rfl hc
  obtain ⟨v, hfewer, hmore⟩ | ⟨e, hfewer, ⟨name, span, rfl, hname⟩ | hmore⟩ := hresult
  · have hv : v.map id = v := v.map_id
    have heq : parse fewer source = parse more source := by
      rw [parse, parse, hfewer, hmore]
      exact congrArg Except.ok hv.symm
    exact ⟨.inl heq, fun p hp => heq ▸ hp⟩
  · refine ⟨.inr ⟨name, span, hfewer, hname⟩, fun p hp => ?_⟩
    rw [parse, hfewer] at hp
    cases hp
  · have he : e.map id = e := e.map_id
    have heq : parse fewer source = parse more source := by
      rw [parse, parse, hfewer, hmore]
      exact congrArg Except.error he.symm
    exact ⟨.inl heq, fun p hp => heq ▸ hp⟩

/-- Allowing `foo` turns the refusal of its bare arguments into an invocation. -/
theorem parse_foo_eq_or_needsParentheses :
    (∀ name, name ∈ StatementCalls.empty → name ∈ StatementCalls.ofList ["foo"]) ∧
    ((parse .empty "foo 1, 2" = parse (.ofList ["foo"]) "foo 1, 2" ∨
      ∃ name span, parse .empty "foo 1, 2" = .error (.needsParentheses name span) ∧
        name ∈ StatementCalls.ofList ["foo"] ∧ name ∉ StatementCalls.empty) ∧
    ∀ p, parse .empty "foo 1, 2" = .ok p → parse (.ofList ["foo"]) "foo 1, 2" = .ok p) := by
  have h : ∀ name, name ∈ StatementCalls.empty → name ∈ StatementCalls.ofList ["foo"] :=
    fun name hname => absurd hname List.not_mem_nil
  exact ⟨h, parse_eq_or_needsParentheses "foo 1, 2" h⟩

end CallGrammar
