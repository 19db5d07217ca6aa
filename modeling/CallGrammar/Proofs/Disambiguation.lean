import CallGrammar.Proofs.Reading.Sound
import CallGrammar.Proofs.Roles.Grammar

/-!
# CallGrammar.Proofs.Disambiguation

What the names of a source stand for in its tree.  The names of a tree are those of
its source, in order, so the role of a name token is found by its number.
-/

namespace CallGrammar

/-- The tokens of an accepted source, walked along with the nodes of its tree. -/
theorem walked_of_parse {calls : StatementCalls} {source : String} {p : Program Span}
    (h : parse calls source = .ok p) :
    Walked calls none (Token.significant (Token.ofText source)) [] p.nodes :=
  (reads_of_parse h).plays (Token.sorted_significant source) none nofun

/-- **Disambiguation**: each name of an accepted source stands in the tree for what
the tokens around it tell.  It begins a statement if some statement of the tree
starts where it does, and its call is a whole statement if some statement covers
the name, the arguments and the lambda. -/
theorem role_of_name {calls : StatementCalls} {source : String} {p : Program Span}
    (h : parse calls source = .ok p) :
    p.names.length
        = ((Token.significant (Token.ofText source)).filter (isName ·.kind)).length ∧
      ∀ (before next : List (Token Span)) (t : Token Span) (text : String),
        Token.significant (Token.ofText source) = before ++ t :: next → t.kind = .name text →
        ∃ role, p.names[(before.filter (isName ·.kind)).length]? = some (text, role) ∧
          PlaysRole calls text (lastKind none before) next
            (∃ s ∈ p.statements, s.span.start = t.span.start)
            (∃ s ∈ p.statements, Covers s.span (t :: callTokens next)) role := by
  obtain ⟨stmt, ns, hnodes, hplayed⟩ := walked_of_parse h
  have hnames : p.names = ns.filterMap Node.name? := by
    rw [Program.names, hnodes, List.filterMap_append, names_stmtNode, List.nil_append]
  have hstatements : ∀ s, s ∈ p.statements ↔ s ∈ stmt ∨ .stmt s ∈ ns := by
    intro s
    rw [← mem_stmtNode, ← List.mem_append, ← hnodes, Program.statements, List.mem_filterMap]
    constructor
    · rintro ⟨node, hnode, hs⟩
      cases node with
      | stmt s' =>
        cases hs
        exact hnode
      | _ => cases hs
    · exact fun hs => ⟨.stmt s, hs, rfl⟩
  constructor
  · rw [hnames, hplayed.length_names]
  · intro before next t text hsplit ht
    have hsorted := Token.sorted_significant source
    obtain ⟨role, here, hname, hrole, hhere⟩ := hplayed.lookup hsorted hsplit ht
    rw [List.append_nil] at hrole
    have hone : ∀ s, s ∈ p.statements ∧ s.span.start = t.span.start ↔ s ∈ here := by
      intro s
      rw [hstatements]
      exact hhere s
    have hstarts : (∃ s ∈ p.statements, s.span.start = t.span.start) ↔ here.isSome = true := by
      rw [Option.isSome_iff_exists]
      exact exists_congr hone
    have hwhole : (∃ s ∈ p.statements, Covers s.span (t :: callTokens next)) ↔
        ∃ s ∈ here, Covers s.span (t :: callTokens next) := by
      constructor
      · rintro ⟨s, hs, hcovers⟩
        exact ⟨s, (hone s).1 ⟨hs, hcovers.start_eq⟩, hcovers⟩
      · rintro ⟨s, hs, hcovers⟩
        exact ⟨s, ((hone s).2 hs).1, hcovers⟩
    rw [hnames]
    exact ⟨role, hname, hrole.congr hstarts hwhole⟩

/-- A name before another name, at the start of a statement, is invoked on it. -/
theorem role_of_name_foo : ∃ p args, parse .default "foo bar(1)" = .ok p ∧
    p.names[0]? = some ("foo", .invoked args none) ∧ args ≠ [] := by
  have hstarts : (parse .default "foo bar(1)").toOption.map
      (fun p => p.statements.map fun s => s.span.start) = some [0] := by decide +kernel
  cases hp : parse .default "foo bar(1)" with
  | error e =>
    rw [hp] at hstarts
    cases hstarts
  | ok p =>
    have htokens : Token.significant (Token.ofText "foo bar(1)")
        = [] ++ ⟨.name "foo", ⟨0, 3⟩, false⟩ :: [⟨.name "bar", ⟨4, 7⟩, false⟩,
          ⟨.symbol .openParen, ⟨7, 8⟩, true⟩, ⟨.integer "1", ⟨8, 9⟩, true⟩,
          ⟨.symbol .closeParen, ⟨9, 10⟩, true⟩] := by decide +kernel
    obtain ⟨role, hname, hrole⟩ := (role_of_name hp).2 _ _ _ "foo" htokens rfl
    have hstart : ∃ s ∈ p.statements, s.span.start = 0 := by
      rw [hp] at hstarts
      have hmap : p.statements.map (fun s => s.span.start) = [0] := Option.some.inj hstarts
      have hmem : 0 ∈ p.statements.map fun s => s.span.start := by
        rw [hmap]
        exact List.mem_cons_self
      obtain ⟨s, hs, hzero⟩ := List.mem_map.1 hmem
      exact ⟨s, hs, hzero⟩
    obtain ⟨args, rfl, hne, -⟩ := hrole.bare nofun nofun ⟨hstart, _, rfl, .name "bar" false⟩
    exact ⟨p, args, rfl, hname, hne⟩

end CallGrammar
