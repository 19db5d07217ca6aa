import CallGrammar.Proofs.Brackets
import CallGrammar.Proofs.Extent
import CallGrammar.Proofs.Nodes

/-!
# CallGrammar.Proofs.Roles

What each name of a source stands for, told from the tokens around it: after a dot
it is a method; before a parenthesis it is called, or invoked if the call is a whole
statement; at the start of a statement and before an argument it is invoked on
arguments without parentheses; anything else is a bare word.

`Played` walks along tokens and nodes together.  It carries, for each token, the
statement that begins there, so that whether a name begins a statement, and whether
a call is all of it, can be seen at the name.
-/

namespace CallGrammar

/-! ## roles -/

/-- The tokens that can begin an argument without parentheses after a name; an opening
bracket can if it does not touch the name. -/
inductive StartsArgument : Kind → (touching : Bool) → Prop where
  | name (text : String) (touching : Bool) : StartsArgument (.name text) touching
  | reference (text : String) (touching : Bool) : StartsArgument (.reference text) touching
  | var (text : String) (touching : Bool) : StartsArgument (.var text) touching
  | integer (text : String) (touching : Bool) : StartsArgument (.integer text) touching
  | float (text : String) (touching : Bool) : StartsArgument (.float text) touching
  | singleQuoted (value : String) (touching : Bool) : StartsArgument (.singleQuoted value) touching
  | doubleQuoted (value : String) (touching : Bool) : StartsArgument (.doubleQuoted value) touching
  | trueWord (touching : Bool) : StartsArgument (.keyword .trueWord) touching
  | falseWord (touching : Bool) : StartsArgument (.keyword .falseWord) touching
  | undefWord (touching : Bool) : StartsArgument (.keyword .undefWord) touching
  | bang (touching : Bool) : StartsArgument (.symbol .bang) touching
  | bracket : StartsArgument (.symbol .openBracket) false

/-- The grammar looks for just these tokens. -/
theorem beginsArgument_iff {k : Option Kind} {touching : Bool} :
    Grammar.beginsArgument k touching = true ↔ ∃ kind ∈ k, StartsArgument kind touching := by
  constructor
  · intro h
    unfold Grammar.beginsArgument at h
    split at h
    case h_12 =>
      obtain rfl : touching = false := by simpa using h
      exact ⟨_, rfl, .bracket⟩
    case h_13 => cases h
    all_goals exact ⟨_, rfl, by constructor⟩
  · rintro ⟨kind, rfl, hstarts⟩
    cases hstarts <;> rfl

/-- The role of a name between the token `previous` and the tokens `next`.  `starts`
says that a statement begins at the name, `whole` that some statement is the name
with its call. -/
structure PlaysRole (calls : StatementCalls) (text : String) (previous : Option Kind)
    (next : List (Token Span)) (starts whole : Prop) (role : Role Span) : Prop where
  method : previous = some (.symbol .dot) →
    ∃ args lambda, role = .method args lambda ∧
      (args ≠ [] → headKind next = some (.symbol .openParen))
  invoked : previous ≠ some (.symbol .dot) → headKind next = some (.symbol .openParen) → whole →
    ∃ args lambda, role = .invoked args lambda
  called : previous ≠ some (.symbol .dot) → headKind next = some (.symbol .openParen) → ¬ whole →
    ∃ args lambda, role = .called args lambda
  bare : previous ≠ some (.symbol .dot) → headKind next ≠ some (.symbol .openParen) →
    starts ∧ (∃ kind ∈ headKind next, StartsArgument kind (headTouches next)) →
    ∃ args, role = .invoked args none ∧ args ≠ [] ∧ (2 ≤ args.length → text ∈ calls)
  word : previous ≠ some (.symbol .dot) → headKind next ≠ some (.symbol .openParen) →
    ¬ (starts ∧ ∃ kind ∈ headKind next, StartsArgument kind (headTouches next)) →
    role = .word

namespace PlaysRole

variable {calls : StatementCalls} {text : String} {previous : Option Kind}
  {next : List (Token Span)} {starts whole : Prop}

/-- Behind a dot a name is a method. -/
theorem of_dot {args : List (Expr Span)} {lambda : Option (Lambda Span)}
    (hp : previous = some (.symbol .dot))
    (hargs : args ≠ [] → headKind next = some (.symbol .openParen)) :
    PlaysRole calls text previous next starts whole (.method args lambda) where
  method _ := ⟨args, lambda, rfl, hargs⟩
  invoked hne := absurd hp hne
  called hne := absurd hp hne
  bare hne := absurd hp hne
  word hne := absurd hp hne

/-- A call that is all of a statement is an invocation. -/
theorem of_whole {args : List (Expr Span)} {lambda : Option (Lambda Span)}
    (hp : previous ≠ some (.symbol .dot)) (hparen : headKind next = some (.symbol .openParen))
    (hwhole : whole) : PlaysRole calls text previous next starts whole (.invoked args lambda) where
  method heq := absurd heq hp
  invoked _ _ _ := ⟨args, lambda, rfl⟩
  called _ _ hnot := absurd hwhole hnot
  bare _ hne := absurd hparen hne
  word _ hne := absurd hparen hne

/-- Any other name before a parenthesis is called. -/
theorem of_call {args : List (Expr Span)} {lambda : Option (Lambda Span)}
    (hp : previous ≠ some (.symbol .dot)) (hparen : headKind next = some (.symbol .openParen))
    (hwhole : ¬ whole) : PlaysRole calls text previous next starts whole (.called args lambda) where
  method heq := absurd heq hp
  invoked _ _ h := absurd h hwhole
  called _ _ _ := ⟨args, lambda, rfl⟩
  bare _ hne := absurd hparen hne
  word _ hne := absurd hparen hne

/-- A name that begins a statement takes the argument that follows it. -/
theorem of_bare {args : List (Expr Span)} (hp : previous ≠ some (.symbol .dot))
    (hparen : headKind next ≠ some (.symbol .openParen)) (hstarts : starts)
    (hbegins : Grammar.beginsArgument (headKind next) (headTouches next) = true) (hne : args ≠ [])
    (hcalls : 2 ≤ args.length → text ∈ calls) :
    PlaysRole calls text previous next starts whole (.invoked args none) where
  method heq := absurd heq hp
  invoked _ heq := absurd heq hparen
  called _ heq := absurd heq hparen
  bare _ _ _ := ⟨args, rfl, hne, hcalls⟩
  word _ _ hnot := absurd ⟨hstarts, beginsArgument_iff.1 hbegins⟩ hnot

/-- A name that nothing is given to is a word. -/
theorem of_word (hp : previous ≠ some (.symbol .dot))
    (hparen : headKind next ≠ some (.symbol .openParen))
    (hnot : ¬ (starts ∧ Grammar.beginsArgument (headKind next) (headTouches next) = true)) :
    PlaysRole calls text previous next starts whole .word where
  method heq := absurd heq hp
  invoked _ heq := absurd heq hparen
  called _ heq := absurd heq hparen
  bare _ _ h := absurd ⟨h.1, beginsArgument_iff.2 h.2⟩ hnot
  word _ _ _ := rfl

/-- A role depends on the statements only as far as they begin at the name and are
the name with its call. -/
theorem congr {starts' whole' : Prop} {role : Role Span} (hstarts : starts' ↔ starts)
    (hwhole : whole' ↔ whole) (h : PlaysRole calls text previous next starts whole role) :
    PlaysRole calls text previous next starts' whole' role := by
  rw [propext hstarts, propext hwhole]
  exact h

end PlaysRole

/-! ## tokens and nodes together -/

/-- The node of a statement that begins somewhere, if one does. -/
def stmtNode : Option (Stmt Span) → List (Node Span)
  | none => []
  | some s => [.stmt s]

/-- The nodes that a token itself gives: a name with its role, or no name. -/
def Own (calls : StatementCalls) (stmt : Option (Stmt Span)) (previous : Option Kind)
    (t : Token Span) (next : List (Token Span)) (own : List (Node Span)) : Prop :=
  match t.kind with
  | .name text => ∃ role, own = [.name text role] ∧
      PlaysRole calls text previous next (stmt.isSome = true)
        (∃ s ∈ stmt, Covers s.span (t :: callTokens next)) role
  | _ => ∃ words : List Word, own = words.map .leaf

/-- The tokens `ts`, after `previous` and before `after`, give the nodes: each name
plays its role.  The statement `stmt`, if any, begins at the first token; its own
node is not among the nodes. -/
inductive Played (calls : StatementCalls) : Option (Stmt Span) → Option Kind →
    (ts after : List (Token Span)) → List (Node Span) → Prop where
  | nil {previous : Option Kind} {after : List (Token Span)} : Played calls none previous [] after []
  | cons {stmt stmt' : Option (Stmt Span)} {previous : Option Kind} {t : Token Span}
      {ts after : List (Token Span)} {own nodes : List (Node Span)}
      (hstmt : ∀ s ∈ stmt, s.span.start = t.span.start)
      (hown : Own calls stmt previous t (ts ++ after) own)
      (h : Played calls stmt' (some t.kind) ts after nodes) :
      Played calls stmt previous (t :: ts) after (own ++ (stmtNode stmt' ++ nodes))

/-- The same with the node of the statement that begins at the first token. -/
def Walked (calls : StatementCalls) (previous : Option Kind) (ts after : List (Token Span))
    (nodes : List (Node Span)) : Prop :=
  ∃ stmt inside, nodes = stmtNode stmt ++ inside ∧ Played calls stmt previous ts after inside

variable {calls : StatementCalls} {stmt : Option (Stmt Span)} {s : Stmt Span}
  {previous : Option Kind} {t : Token Span} {ts us rest after : List (Token Span)}
  {own ns ms : List (Node Span)}

/-- With the statement that begins there, its node comes first. -/
theorem Played.walked (h : Played calls stmt previous ts after ns) :
    Walked calls previous ts after (stmtNode stmt ++ ns) :=
  ⟨stmt, ns, rfl, h⟩

/-- The nodes of a token before those of the others. -/
theorem Played.cons_walked (hstmt : ∀ s ∈ stmt, s.span.start = t.span.start)
    (hown : Own calls stmt previous t (ts ++ after) own)
    (h : Walked calls (some t.kind) ts after ns) :
    Played calls stmt previous (t :: ts) after (own ++ ns) := by
  obtain ⟨stmt', inside, rfl, h⟩ := h
  exact .cons hstmt hown h

theorem Walked.append (h : Walked calls previous ts (us ++ after) ns)
    (h' : Walked calls (lastKind previous ts) us after ms) :
    Walked calls previous (ts ++ us) after (ns ++ ms) := by
  obtain ⟨stmt, inside, rfl, h⟩ := h
  generalize hend : us ++ after = rest at h
  induction h with
  | nil => exact h'
  | @cons stmt stmt' previous t ts rest own nodes hstmt hown _ ih =>
    subst hend
    have htail := ih h' rfl
    rw [← List.append_assoc] at hown
    have hplayed := Played.cons_walked hstmt hown htail
    rw [List.append_assoc, List.append_assoc]
    exact ⟨stmt, _, rfl, hplayed⟩

/-- Nodes of tokens one after the other. -/
theorem Played.append (h : Played calls stmt previous ts (us ++ after) ns)
    (h' : Played calls none (lastKind previous ts) us after ms) :
    Played calls stmt previous (ts ++ us) after (ns ++ ms) := by
  cases h with
  | nil => exact h'
  | @cons _ stmt' _ t ts _ own nodes hstmt hown h =>
    have htail := h.walked.append h'.walked
    rw [List.append_assoc]
    rw [← List.append_assoc] at hown
    exact .cons_walked hstmt hown htail

/-- A name gives itself, in its role. -/
theorem own_name {text : String} {role : Role Span} (ht : t.kind = .name text)
    (h : PlaysRole calls text previous rest (stmt.isSome = true)
      (∃ s ∈ stmt, Covers s.span (t :: callTokens rest)) role) :
    Own calls stmt previous t rest [.name text role] := by
  unfold Own
  rw [ht]
  exact ⟨role, rfl, h⟩

/-! ## tokens that are no names -/

/-- Any other token gives words, but no name. -/
theorem own_of_not_name (ht : isName t.kind = false) (words : List Word) :
    Own calls stmt previous t rest (words.map .leaf) := by
  unfold Own
  split
  · next text hk =>
    rw [hk] at ht
    cases ht
  · exact ⟨words, rfl⟩

theorem Played.skip (ht : isName t.kind = false) (h : Walked calls (some t.kind) ts after ns) :
    Played calls none previous (t :: ts) after ns :=
  .cons_walked (fun s hs => absurd hs (Option.not_mem_none s)) (own_of_not_name ht []) h

theorem Played.leaf (ht : isName t.kind = false) (w : Word)
    (h : Walked calls (some t.kind) ts after ns) :
    Played calls none previous (t :: ts) after (.leaf w :: ns) :=
  .cons_walked (fun s hs => absurd hs (Option.not_mem_none s)) (own_of_not_name ht [w]) h

theorem Played.skipAll (h : AllKinds (!isName ·) ts) : Played calls none previous ts after [] := by
  induction ts generalizing previous with
  | nil => exact .nil
  | cons t ts ih =>
    have ht : isName t.kind = false := by simpa using h.head
    have htail : Played calls none (some t.kind) ts after [] := ih h.tail
    exact .skip ht htail.walked

theorem Played.newlines (h : Newlines ts) : Played calls none previous ts after [] :=
  .skipAll (h.all rfl)

theorem Played.separators (h : Separators ts) : Played calls none previous ts after [] :=
  .skipAll (h.all rfl rfl)

/-- A statement may begin at a first token that is no name. -/
theorem Played.begin (h : Played calls none previous ts after ns)
    (hname : ∀ text, headKind ts ≠ some (.name text)) (hs : Covers s.span ts) :
    Played calls (some s) previous ts after ns := by
  cases h with
  | nil =>
    obtain ⟨t, u, ht, -, -⟩ := hs
    cases ht
  | @cons _ stmt' _ t ts _ own nodes hstmt hown h =>
    have hstart : ∀ s' ∈ some s, s'.span.start = t.span.start := by
      rintro s' hs'
      cases hs'
      exact hs.start_eq
    have hown : Own calls (some s) previous t (ts ++ after) own := by
      unfold Own at hown ⊢
      split at hown
      · next text hk => exact absurd (congrArg some hk) (hname text)
      · exact hown
    exact .cons hstart hown h

/-! ## looking up -/

theorem mem_stmtNode {stmt : Option (Stmt Span)} : .stmt s ∈ stmtNode stmt ↔ s ∈ stmt := by
  cases stmt with
  | none => simp [stmtNode]
  | some s' => simp [stmtNode, eq_comm]

theorem names_stmtNode (stmt : Option (Stmt Span)) :
    (stmtNode stmt).filterMap Node.name? = [] := by
  cases stmt <;> rfl

theorem Own.not_stmt (h : Own calls stmt previous t rest own) : .stmt s ∉ own := by
  unfold Own at h
  split at h
  · obtain ⟨role, rfl, -⟩ := h
    simp
  · obtain ⟨words, rfl⟩ := h
    simp

/-- What a name gives is itself, in the role that its neighbours tell. -/
theorem Own.name {text : String} (h : Own calls stmt previous t rest own)
    (ht : t.kind = .name text) :
    ∃ role, own = [.name text role] ∧ PlaysRole calls text previous rest (stmt.isSome = true)
      (∃ s ∈ stmt, Covers s.span (t :: callTokens rest)) role := by
  unfold Own at h
  rw [ht] at h
  exact h

/-- A token gives one name if it is one, and else none. -/
theorem Own.length_names (h : Own calls stmt previous t rest own) (ts : List (Token Span)) :
    ((t :: ts).filter (isName ·.kind)).length
      = (own.filterMap Node.name?).length + (ts.filter (isName ·.kind)).length := by
  unfold Own at h
  split at h
  · next text hk =>
    obtain ⟨role, rfl, -⟩ := h
    have hname : isName t.kind = true := by rw [hk]; rfl
    rw [List.filter_cons, if_pos hname, List.length_cons, Nat.add_comm]
    rfl
  · next hk =>
    obtain ⟨words, rfl⟩ := h
    have hname : ¬ isName t.kind = true := by
      unfold isName
      split
      · next text ht => exact absurd ht (hk text)
      · exact Bool.false_ne_true
    have hnone : (words.map (Node.leaf (σ := Span))).filterMap Node.name? = [] := by
      rw [List.filterMap_map]
      exact List.filterMap_eq_nil_iff.2 fun _ _ => rfl
    rw [List.filter_cons, if_neg hname, hnone, List.length_nil, Nat.zero_add]

/-- There are as many names among the nodes as among the tokens. -/
theorem Played.length_names (h : Played calls stmt previous ts after ns) :
    (ns.filterMap Node.name?).length = (ts.filter (isName ·.kind)).length := by
  induction h with
  | nil => rfl
  | @cons _ stmt' _ t ts after own nodes _ hown _ ih =>
    rw [List.filterMap_append, List.filterMap_append, names_stmtNode, List.nil_append,
      List.length_append, ih, hown.length_names]

/-- Statements begin at tokens. -/
theorem Played.starts (h : Played calls stmt previous ts after ns)
    (hs : s ∈ stmt ∨ .stmt s ∈ ns) : ∃ t ∈ ts, s.span.start = t.span.start := by
  induction h with
  | nil => simp at hs
  | @cons stmt stmt' previous t ts after own nodes hstmt hown _ ih =>
    obtain hs | hs := hs
    · exact ⟨t, List.mem_cons_self, hstmt s hs⟩
    · rw [List.mem_append, List.mem_append, mem_stmtNode] at hs
      obtain hs | hs := hs
      · exact absurd hs hown.not_stmt
      · obtain ⟨u, hu, heq⟩ := ih hs
        exact ⟨u, List.mem_cons_of_mem t hu, heq⟩

/-- At a name among the tokens: its role is found among the nodes by its number, and
the statement that begins there is the only one that does. -/
theorem Played.lookup (h : Played calls stmt previous ts after ns) (hsorted : Sorted ts)
    {before next : List (Token Span)} {text : String} (hts : ts = before ++ t :: next)
    (ht : t.kind = .name text) :
    ∃ (role : Role Span) (here : Option (Stmt Span)),
      (ns.filterMap Node.name?)[(before.filter (isName ·.kind)).length]? = some (text, role) ∧
      PlaysRole calls text (lastKind previous before) (next ++ after) (here.isSome = true)
        (∃ s ∈ here, Covers s.span (t :: callTokens (next ++ after))) role ∧
      ∀ s, (s ∈ stmt ∨ .stmt s ∈ ns) ∧ s.span.start = t.span.start ↔ s ∈ here := by
  induction h generalizing before with
  | nil => cases before <;> cases hts
  | @cons stmt stmt' previous u ts after own nodes hstmt hown hplayed ih =>
    cases before with
    | nil =>
      obtain ⟨rfl, rfl⟩ := List.cons.inj hts
      obtain ⟨role, rfl, hrole⟩ := hown.name ht
      refine ⟨role, stmt, rfl, hrole, fun s => ⟨?_, fun hs => ⟨.inl hs, hstmt s hs⟩⟩⟩
      rintro ⟨hs | hs, hstart⟩
      · exact hs
      · rw [List.mem_append, List.mem_append, mem_stmtNode] at hs
        obtain hs | hs := hs
        · exact absurd hs hown.not_stmt
        · obtain ⟨v, hv, hstart'⟩ := hplayed.starts hs
          have hsplit : Sorted ([u] ++ _) := hsorted
          have hle := hsplit.stop_le_start List.mem_cons_self hv
          have hlt := hsorted.nonempty u List.mem_cons_self
          omega
    | cons b before =>
      obtain ⟨rfl, rfl⟩ := List.cons.inj hts
      obtain ⟨role, here, hname, hrole, hhere⟩ := ih hsorted.tail rfl
      have hsplit : Sorted ([u] ++ (before ++ t :: next)) := hsorted
      have hle := hsplit.stop_le_start List.mem_cons_self
        (List.mem_append_right before List.mem_cons_self)
      have hlt := hsorted.nonempty u List.mem_cons_self
      refine ⟨role, here, ?_, hrole, fun s => ?_⟩
      · rw [List.filterMap_append, List.filterMap_append, names_stmtNode, List.nil_append,
          hown.length_names, List.getElem?_append_right (Nat.le_add_right _ _),
          Nat.add_sub_cancel_left]
        exact hname
      · rw [← hhere s, List.mem_append, List.mem_append, mem_stmtNode]
        constructor
        · rintro ⟨hs | hs | hs, hstart⟩
          · have hstart' := hstmt s hs
            omega
          · exact absurd hs hown.not_stmt
          · exact ⟨hs, hstart⟩
        · rintro ⟨hs, hstart⟩
          exact ⟨.inr (.inr hs), hstart⟩

end CallGrammar
