import CallGrammar.Ast.Dump
import CallGrammar.Proofs.Balance
import CallGrammar.Proofs.Bare
import CallGrammar.Proofs.Exchange.Grammar

/-!
# CallGrammar.Proofs.Chains

A chain of `elsif` parts is nested conditionals.  Each `elsif` of a chain may be written as
`else { if`, with as many closing braces behind the chain; what is read is the same tree.

The words of a chain are those outside the brackets of the statement (`unchain`): no
expression has one of its own (`Reads.outside`), and a conditional in a body is in braces.
-/

namespace CallGrammar

variable {σ : Type}

/-! ## rewritten chains -/

/-- The words `else { if` for one `elsif`, at its place. -/
def Token.unchained (t : Token σ) : List (Token σ) :=
  [{ t with kind := .keyword .elseWord }, { t with kind := .symbol .openBrace },
    { t with kind := .keyword .ifWord }]

/-- The tokens, where `depth` groups are open before them, with `else { if` for every `elsif`
that is in no group. -/
def unchain (depth : Nat) : List (Token σ) → List (Token σ)
  | [] => []
  | t :: ts =>
    if t.kind.opensGroup then t :: unchain (depth + 1) ts
    else if t.kind.closesGroup then t :: unchain (depth - 1) ts
    else if depth = 0 ∧ t.kind = .keyword .elsifWord then t.unchained ++ unchain depth ts
    else t :: unchain depth ts

/-- How many `elsif` there are in no group. -/
def elsifs (depth : Nat) : List (Token σ) → Nat
  | [] => 0
  | t :: ts =>
    if t.kind.opensGroup then elsifs (depth + 1) ts
    else if t.kind.closesGroup then elsifs (depth - 1) ts
    else if depth = 0 ∧ t.kind = .keyword .elsifWord then elsifs depth ts + 1
    else elsifs depth ts

/-- The tokens behind the first word of a chain, with every `elsif` of it written as
`else { if`, and as many closers behind. -/
def nested (closer : Token σ) (ts : List (Token σ)) : List (Token σ) :=
  unchain 0 ts ++ List.replicate (elsifs 0 ts) closer

/-- The tokens stay as they are, whatever comes behind them. -/
def Unchanged (depth : Nat) (ts : List (Token σ)) : Prop :=
  ∀ us, unchain depth (ts ++ us) = ts ++ unchain depth us ∧
    elsifs depth (ts ++ us) = elsifs depth us

section

variable {t u closer : Token σ} {ts us : List (Token σ)} {depth : Nat}

namespace Unchanged

theorem nil (depth : Nat) : Unchanged depth ([] : List (Token σ)) := fun _ => ⟨rfl, rfl⟩

theorem cons (ht : t.kind.isInner = true) (hword : depth = 0 → t.kind ≠ .keyword .elsifWord)
    (h : Unchanged depth ts) : Unchanged depth (t :: ts) := by
  intro us
  obtain ⟨hopens, hcloses⟩ := Kind.isInner_iff.1 ht
  have hnot : ¬ (depth = 0 ∧ t.kind = .keyword .elsifWord) := fun ⟨hdepth, hk⟩ => hword hdepth hk
  simp [unchain, elsifs, hopens, hcloses, hnot, h us]

/-- What is in brackets is unchanged one deeper. -/
theorem group (hmatch : t.kind.closer? = some u.kind) (h : Unchanged (depth + 1) ts)
    (h' : Unchanged depth us) : Unchanged depth (t :: (ts ++ u :: us)) := by
  intro vs
  obtain ⟨ht, hu⟩ := Kind.groups_of_closer? hmatch
  have hopens := Kind.closesGroup_of_opensGroup hu
  simp [unchain, elsifs, ht, hu, hopens, h (u :: (us ++ vs)), h' vs]

/-- Unchanged tokens one after the other are unchanged. -/
theorem append (h : Unchanged depth ts) (h' : Unchanged depth us) :
    Unchanged depth (ts ++ us) := by
  intro vs
  rw [List.append_assoc, (h _).1, (h _).2, (h' _).1, (h' _).2, List.append_assoc]
  exact ⟨rfl, rfl⟩

theorem newlines (h : Newlines ts) : Unchanged depth ts := by
  induction ts with
  | nil => exact .nil depth
  | cons t ts ih =>
    have ht : t.kind = .newline := eq_of_beq h.head
    exact .cons (by rw [ht]; rfl) (fun _ => by rw [ht]; nofun) (ih h.tail)

/-- Tokens without an `elsif` of their own stand before the rewritten rest. -/
theorem nested_append (h : Unchanged 0 ts) (closer : Token σ) (us : List (Token σ)) :
    nested closer (ts ++ us) = ts ++ nested closer us := by
  rw [nested, (h us).1, (h us).2, nested, List.append_assoc]

end Unchanged

/-- In a group all tokens stay. -/
theorem Balanced.unchanged (h : Balanced ts) (depth : Nat) : Unchanged (depth + 1) ts := by
  induction h generalizing depth with
  | nil => exact .nil _
  | cons ht _ ih => exact .cons ht nofun (ih depth)
  | group hmatch _ _ ih ih' => exact .group hmatch (ih (depth + 1)) (ih' depth)

/-- So do those of an expression. -/
theorem Outside.unchanged (h : Outside Kind.inExpression ts) : Unchanged 0 ts := by
  induction h with
  | nil => exact .nil 0
  | cons ht hp _ ih => exact .cons ht (fun _ hk => by rw [hk] at hp; cases hp) ih
  | group hmatch h _ ih => exact .group hmatch (h.unchanged 0) ih

@[simp] theorem nested_nil (closer : Token σ) : nested closer [] = [] := rfl

/-- An `elsif` opens a block that is closed behind the rest of the chain. -/
theorem nested_elsif (ht : t.kind = .keyword .elsifWord) (ts : List (Token σ)) :
    nested closer (t :: ts) = t.unchained ++ (nested closer ts ++ [closer]) := by
  have hunchain : unchain 0 (t :: ts) = t.unchained ++ unchain 0 ts := by
    rw [unchain, ht]
    rfl
  have helsifs : elsifs 0 (t :: ts) = elsifs 0 ts + 1 := by
    rw [elsifs, ht]
    rfl
  rw [nested, hunchain, helsifs, List.replicate_succ', nested, List.append_assoc,
    List.append_assoc]

/-- Tokens without `elsif` stay as they are. -/
theorem unchain_of_elsifs_eq_zero (h : elsifs depth ts = 0) : unchain depth ts = ts := by
  induction ts generalizing depth with
  | nil => rfl
  | cons t ts ih =>
    simp only [elsifs, unchain] at h ⊢
    split at h
    · next ht => rw [if_pos ht, ih h]
    · next ht =>
      rw [if_neg ht]
      split at h
      · next hcloses => rw [if_pos hcloses, ih h]
      · next hcloses =>
        rw [if_neg hcloses]
        split at h
        · cases h
        · next hword => rw [if_neg hword, ih h]

/-- The last token stays at its place, if the closers are put there. -/
theorem lastPlace_nested (h : ts ≠ [] → lastPlace ts = some closer.span) :
    lastPlace (nested closer ts) = lastPlace ts := by
  unfold nested
  cases hcount : elsifs 0 ts with
  | zero => rw [unchain_of_elsifs_eq_zero hcount, List.replicate_zero, List.append_nil]
  | succ n =>
    have hne : ts ≠ [] := by
      rintro rfl
      cases hcount
    rw [List.replicate_succ', ← List.append_assoc,
      lastPlace_append_of_ne_nil (List.cons_ne_nil _ _), h hne]
    rfl

end

/-! ## dumps -/

section

variable {τ : Type} (f : σ → τ)

theorem Ident.parametersPart_map (params : List (Ident σ)) :
    Ident.parametersPart (params.map (Ident.map f)) = Ident.parametersPart params := by
  simp [Ident.parametersPart, Ident.map, Function.comp_def]

mutual

/-- What is shown of an expression does not depend on its places. -/
theorem Expr.toPart_map : (e : Expr σ) → (e.map f).toPart = e.toPart
  | .call s callee args lambda => by
      simp only [Expr.map, Expr.toPart, partsOfExprs_map args, partsOfLambda_map lambda]; rfl
  | .method s receiver callee args lambda => by
      simp only [Expr.map, Expr.toPart, receiver.toPart_map, partsOfExprs_map args,
        partsOfLambda_map lambda]; rfl
  | .word _ _ | .reference _ _ | .var _ _ | .literal _ _ => by simp only [Expr.map, Expr.toPart]
  | .array s items => by simp only [Expr.map, Expr.toPart, partsOfExprs_map items]
  | .hash s entries => by simp only [Expr.map, Expr.toPart, partsOfEntries_map entries]
  | .access s target keys => by
      simp only [Expr.map, Expr.toPart, target.toPart_map, partsOfExprs_map keys]
  | .binary s op left right => by
      simp only [Expr.map, Expr.toPart, left.toPart_map, right.toPart_map]
  | .unary s op operand => by simp only [Expr.map, Expr.toPart, operand.toPart_map]

theorem partsOfExprs_map : (es : List (Expr σ)) → partsOfExprs (mapExprs f es) = partsOfExprs es
  | [] => rfl
  | e :: es => by rw [mapExprs, partsOfExprs, e.toPart_map, partsOfExprs_map es, partsOfExprs]

theorem Entry.toPart_map : (e : Entry σ) → (e.map f).toPart = e.toPart
  | ⟨key, value⟩ => by simp only [Entry.map, Entry.toPart, key.toPart_map, value.toPart_map]

theorem partsOfEntries_map : (es : List (Entry σ)) →
    partsOfEntries (mapEntries f es) = partsOfEntries es
  | [] => rfl
  | e :: es => by
      rw [mapEntries, partsOfEntries, e.toPart_map, partsOfEntries_map es, partsOfEntries]

theorem Lambda.toPart_map : (l : Lambda σ) → (l.map f).toPart = l.toPart
  | ⟨s, params, ⟨_, stmts⟩⟩ => by
      have hempty : (mapStmts f stmts).isEmpty = stmts.isEmpty := by cases stmts <;> rfl
      simp only [Lambda.map, Block.map, Lambda.toPart, Ident.parametersPart_map,
        partsOfStmts_map stmts, hempty]

theorem partsOfLambda_map : (l : Option (Lambda σ)) →
    partsOfLambda (mapLambda f l) = partsOfLambda l
  | none => rfl
  | some l => by rw [mapLambda, partsOfLambda, l.toPart_map, partsOfLambda]

/-- What is shown of a statement does not depend on its places. -/
theorem Stmt.toPart_map : (s : Stmt σ) → (s.map f).toPart = s.toPart
  | .invoke s callee args lambda => by
      simp only [Stmt.map, Stmt.toPart, partsOfExprs_map args, partsOfLambda_map lambda]; rfl
  | .assign s target value => by
      simp only [Stmt.map, Stmt.toPart, target.toPart_map, value.toPart_map]
  | .conditional s sense condition ⟨_, stmts⟩ elseBranch => by
      simp only [Stmt.map, Block.map, Stmt.toPart, condition.toPart_map, partsOfStmts_map stmts,
        partsOfElse_map elseBranch]
  | .expr s value => by simp only [Stmt.map, Stmt.toPart, value.toPart_map]

theorem partsOfElse_map : (b : Option (Block σ)) → partsOfElse (mapBlock f b) = partsOfElse b
  | none => rfl
  | some ⟨_, stmts⟩ => by
      simp only [mapBlock, Block.map, partsOfElse, partsOfStmts_map stmts]

theorem partsOfStmts_map : (ss : List (Stmt σ)) → partsOfStmts (mapStmts f ss) = partsOfStmts ss
  | [] => rfl
  | s :: ss => by rw [mapStmts, partsOfStmts, s.toPart_map, partsOfStmts_map ss, partsOfStmts]

end

end

/-- A dump shows no places. -/
theorem Program.toPart_shape (p : Program σ) : p.shape.toPart = p.toPart := by
  obtain ⟨⟨_, stmts⟩⟩ := p
  exact congrArg compactPart (partsOfStmts_map _ stmts)

/-! ## every chain -/

variable [Location σ] {context : Context σ}

/-- A conditional reaches from its word to its last token. -/
theorem Reads.span_conditional {sense : Sense} {t : Token σ} {ts after : List (Token σ)}
    {s : Stmt σ} (h : Reads context (.conditional sense) (t :: ts) after s) :
    s.span = through t.span ts ∧ ts ≠ [] := by
  cases h with
  | conditional _ hcondition _ _ =>
    exact ⟨rfl, List.append_ne_nil_of_left_ne_nil hcondition.opens.ne_nil _⟩

/-- An `else` with a conditional in its body, where both end together, is read as an `elsif`
is. -/
theorem Reads.elseBody_of_conditional {t closer : Token σ} {nl ts after : List (Token σ)}
    {s : Stmt σ} (hnl : Newlines nl) (hcloser : closer.kind = .symbol .closeBrace)
    (hspan : s.span = Location.merge t.span closer.span)
    (h : Reads context (.conditional .ifTrue) ({ t with kind := .keyword .ifWord } :: ts)
      after s) :
    Reads context (.alternative .ifTrue) (nl ++ (t.unchained ++ (ts ++ [closer]))) after
      (some ⟨s.span, [s]⟩) := by
  let brace : Token σ := { t with kind := .symbol .openBrace }
  let word : Token σ := { t with kind := .keyword .ifWord }
  have hinner : Reads context (.conditional .ifTrue) (word :: ts) (closer :: after) s :=
    h.before rfl (.of_closeBrace hcloser after after) trivial
  have hstmt : Reads context .statement (word :: ts) ([] ++ closer :: after) s :=
    .branching (.inl ⟨rfl, rfl⟩) hinner
  have hnothing : Reads context .statements [] (closer :: after) [] :=
    .noStatements nofun fun k hk => (Option.some.inj hk).symm.trans hcloser
  have hcomma : headKind ([] ++ closer :: after) ≠ some (.symbol .comma) := by
    rw [List.nil_append, headKind_cons, hcloser]
    nofun
  have hstmts := Reads.moreStatements (nofun : Separators []) hstmt hcomma hnothing
  rw [List.nil_append, List.append_nil] at hstmts
  have hbody : Reads context (.block .elseBody) (brace :: ((word :: ts) ++ [closer])) after
      ⟨Location.merge brace.span closer.span, [s]⟩ := .block rfl hstmts hcloser
  rw [hspan]
  exact .elseAlternative hnl rfl hbody

/-- A conditional is read the same as a chain and as nested conditionals, and so is what goes on
after its first body.  The first word and the place of the last token may be chosen. -/
def Phrase.Unchains (context : Context σ) :
    (p : Phrase σ) → (ts after : List (Token σ)) → p.Value → Prop
  | conditional .ifTrue, ts, after, s => ∀ {t us}, ts = t :: us → ∀ {first closer : Token σ},
    opensCondition .ifTrue first.kind = true → first.span = t.span →
    closer.kind = .symbol .closeBrace → lastPlace us = some closer.span →
    Reads context (.conditional .ifTrue) (first :: nested closer us) after s
  | alternative .ifTrue, ts, after, v => ∀ {closer : Token σ},
    closer.kind = .symbol .closeBrace → (ts ≠ [] → lastPlace ts = some closer.span) →
    Reads context (.alternative .ifTrue) (nested closer ts) after v
  | _, _, _, _ => True

/-- Every phrase derives from the rewritten tokens, with a value that shows the same. -/
theorem Reads.unchains {p : Phrase σ} {ts after : List (Token σ)} {v : p.Value}
    (h : Reads context p ts after v) : p.Unchains context ts after v := by
  induction h with
  | @conditional sense t condition thenBranch elseBranch ts us vs after ht hcondition hthen helse _
      _ ihelse =>
    cases sense with
    | unlessTrue => trivial
    | ifTrue =>
      intro t' us' heq first closer hfirst hspan hcloser hlast
      obtain ⟨rfl, rfl⟩ := List.cons.inj heq
      obtain ⟨brace, us, rfl, hbrace⟩ : BeginsWith isBrace us := hthen.opens
      have hbehind : vs ≠ [] → lastPlace vs = some closer.span := by
        intro hne
        rw [← List.append_assoc, lastPlace_append_of_ne_nil hne] at hlast
        exact hlast
      have helse : Reads context (.alternative .ifTrue) (nested closer vs) after elseBranch :=
        ihelse hcloser hbehind
      have hkind : brace.kind ≠ .newline := fun hk => by rw [hk] at hbrace; cases hbrace
      have hcondition : Reads context (.expression 0) ts
          (brace :: us ++ (nested closer vs ++ after)) condition :=
        hcondition.before rfl (.of_cons hkind _ _) trivial
      have hwhole := Reads.conditional hfirst hcondition (hthen.block_before _) helse
      have hplace : lastPlace (ts ++ (brace :: us ++ nested closer vs))
          = lastPlace (ts ++ (brace :: us ++ vs)) := by
        rw [← List.append_assoc, ← List.append_assoc]
        exact lastPlace_append_right (lastPlace_nested hbehind) _
      rw [through_of_lastPlace hplace, hspan] at hwhole
      rw [hcondition.outside.unchanged.nested_append,
        (hthen.outside rfl).unchanged.nested_append]
      exact hwhole
  | @noAlternative sense _ helsif helse =>
    cases sense with
    | unlessTrue => trivial
    | ifTrue => exact fun _ _ => .noAlternative helsif helse
  | @elsifAlternative nested' t nl ts after hnl ht hnested ih =>
    intro closer hcloser hlast
    obtain ⟨hspan, hne⟩ := hnested.span_conditional
    have hlast : lastPlace ts = some closer.span := by
      have hplace := hlast (List.append_ne_nil_of_right_ne_nil nl (List.cons_ne_nil t ts))
      rwa [List.append_cons, lastPlace_append_of_ne_nil hne] at hplace
    have hplace : nested'.span = Location.merge t.span closer.span :=
      hspan.trans (through_eq_merge hlast t.span)
    rw [(Unchanged.newlines hnl).nested_append, nested_elsif ht]
    exact .elseBody_of_conditional hnl hcloser hplace (ih rfl rfl rfl hcloser hlast)
  | @elseAlternative sense _ t nl ts after hnl ht hbody ih =>
    cases sense with
    | unlessTrue => trivial
    | ifTrue =>
      intro closer _ _
      have hword : Unchanged 0 [t] :=
        .cons (by rw [ht]; rfl) (fun _ => by rw [ht]; nofun) (.nil 0)
      have hkept := (Unchanged.newlines hnl).append (hword.append (hbody.outside rfl).unchanged)
      have hnested : nested closer (nl ++ t :: ts) = nl ++ t :: ts := by
        have happend := hkept.nested_append closer []
        rwa [List.append_nil, nested_nil, List.append_nil] at happend
      exact (Reads.elseAlternative hnl ht hbody).of_eq hnested
  | _ => trivial

/-! ## source units -/

/-- A statement that begins with `if` is a conditional. -/
theorem Reads.conditional_of_statement {t : Token σ} {ts after : List (Token σ)} {s : Stmt σ}
    (h : Reads context .statement (t :: ts) after s) (ht : t.kind = .keyword .ifWord) :
    Reads context (.conditional .ifTrue) (t :: ts) after s := by
  generalize hts : t :: ts = us at h
  have hnot {begins : Kind → Bool} (hbegins : begins (.keyword .ifWord) = false)
      {vs ws : List (Token σ)} (hvs : BeginsWith begins vs) : t :: ts ≠ vs ++ ws := by
    intro heq
    refine hvs.head_ne hbegins ws ?_
    rw [← heq, headKind_cons, ht]
  cases h with
  | branching hword hstmt =>
    obtain ⟨rfl, rfl⟩ := List.cons.inj hts
    obtain ⟨-, rfl⟩ | ⟨hunless, -⟩ := hword
    · exact hstmt
    · rw [ht] at hunless
      cases hunless
  | invocation hcallable =>
    have heq := hts.trans (List.append_nil us).symm
    exact absurd heq (hnot rfl hcallable.opens)
  | callableValue hcallable => exact absurd hts (hnot rfl hcallable.opens)
  | value _ hexpr => exact absurd hts (hnot rfl hexpr.opens)

/-- **Chains**: let a source be accepted, and let a conditional in it stand on the tokens
`t :: chain`, from its `if` to the end of its last branch.  With `else { if` for each `elsif` of the
chain and as many closing braces behind it the source is accepted, with the same tree up to its
spans and so the same dump. -/
theorem parse_of_nested {calls : StatementCalls} {source edited : String} {p : Program Span}
    {s : Stmt Span} {t closer : Token Span} {before chain rest : List (Token Span)}
    (h : parse calls source = .ok p)
    (hsource : Token.significant (Token.ofText source) = before ++ t :: (chain ++ rest))
    (hin : p.Has (.stmt s)) (hcovers : Covers s.span (t :: chain))
    (ht : t.kind = .keyword .ifWord) (hcloser : closer.kind = .symbol .closeBrace)
    (hedited : (Token.significant (Token.ofText edited)).map Token.word
      = (before ++ t :: (nested closer chain ++ rest)).map Token.word) :
    ∃ q, parse calls edited = .ok q ∧ q.shape = p.shape ∧ q.toPart.format = p.toPart.format := by
  have hs := Token.sorted_significant source
  have hreads := reads_of_parse h
  rw [hsource] at hs hreads
  have hkind : t.kind ≠ .keyword .elsifWord := by rw [ht]; nofun
  obtain ⟨hstands, hexchange⟩ := hreads.exchange (m := .stmt s) hs trivial hin hcovers hkind
  have hchain := (hstands.statement hkind).conditional_of_statement ht
  obtain ⟨-, hne⟩ := hchain.span_conditional
  -- closers at the place of the last token, so that the spans around them stay
  let last : Token Span := ⟨closer.kind, (chain.getLast hne).span, closer.touching⟩
  have hlast : lastPlace chain = some last.span := by
    rw [lastPlace, List.getLast?_eq_some_getLast hne]
    rfl
  have hnested : Reads _ (.conditional .ifTrue) (t :: nested last chain) rest s :=
    hchain.unchains rfl (by rw [ht]; rfl) rfl hcloser hlast
  have hplace : lastPlace (t :: nested last chain) = lastPlace (t :: chain) :=
    lastPlace_append_right (lastPlace_nested fun _ => hlast) [t]
  have hp := hexchange _ hplace (.stmt (.branching (.inl ⟨ht, rfl⟩) hnested))
  have hwords : (before ++ t :: (nested closer chain ++ rest)).map Token.word
      = (before ++ t :: (nested last chain ++ rest)).map Token.word := by
    have hword : last.word = closer.word := rfl
    simp [nested, hword]
  obtain ⟨q, hq, hshape⟩ := Parser.exists_program_of_reads (q := Parser.ofSource calls edited)
    hp rfl rfl (hedited.trans hwords)
  refine ⟨q, hq, hshape, ?_⟩
  rw [← q.toPart_shape, ← p.toPart_shape, hshape]

/-- Two parts, one after a line break, and a last branch. -/
theorem parse_of_nested_two : ∃ p q,
    parse .default "if $a \x7b\x7d elsif $b \x7b\x7d\nelsif $c \x7bf()\x7d else \x7b\x7d" = .ok p ∧
    parse .default
      "if $a\x7b\x7delse\x7bif $b\x7b\x7d\nelse\x7bif $c\x7bf()\x7delse\x7b\x7d\x7d\x7d" = .ok q ∧
    q.shape = p.shape ∧ q.toPart.format = p.toPart.format := by
  have hspans : (parse .default
      "if $a \x7b\x7d elsif $b \x7b\x7d\nelsif $c \x7bf()\x7d else \x7b\x7d").toOption.map
      (fun p => p.body.stmts.map Stmt.span) = some [⟨0, 43⟩] := by decide +kernel
  cases hp : parse .default
      "if $a \x7b\x7d elsif $b \x7b\x7d\nelsif $c \x7bf()\x7d else \x7b\x7d" with
  | error e =>
    rw [hp] at hspans
    cases hspans
  | ok p =>
    rw [hp] at hspans
    obtain ⟨s, hs, hspan⟩ := List.map_eq_singleton_iff.1 (Option.some.inj hspans)
    have hin : p.Has (.stmt s) := ⟨s, by rw [hs]; exact List.mem_singleton_self s, .here _⟩
    let word : Token Span := ⟨.keyword .ifWord, ⟨0, 2⟩, false⟩
    let closer : Token Span := ⟨.symbol .closeBrace, ⟨42, 43⟩, true⟩
    let chain : List (Token Span) := (Token.significant (Token.ofText
      "if $a \x7b\x7d elsif $b \x7b\x7d\nelsif $c \x7bf()\x7d else \x7b\x7d")).tail
    have htokens : Token.significant (Token.ofText
        "if $a \x7b\x7d elsif $b \x7b\x7d\nelsif $c \x7bf()\x7d else \x7b\x7d")
        = [] ++ word :: (chain ++ []) := by decide +kernel
    have hlast : (word :: chain).getLast? = some closer := by decide +kernel
    have hcovers : Covers s.span (word :: chain) := ⟨word, closer, rfl, hlast, hspan⟩
    have hcloser : closer.kind = .symbol .closeBrace := rfl
    have hwords : (Token.significant (Token.ofText
        "if $a\x7b\x7delse\x7bif $b\x7b\x7d\nelse\x7bif $c\x7bf()\x7delse\x7b\x7d\x7d\x7d")).map
          Token.word = ([] ++ word :: (nested closer chain ++ [])).map Token.word := by
      decide +kernel
    obtain ⟨q, hq, hshape, hdump⟩ := parse_of_nested hp htokens hin hcovers rfl hcloser hwords
    exact ⟨p, q, rfl, hq, hshape, hdump⟩

end CallGrammar
