import CallGrammar.Proofs.Roles

/-!
# CallGrammar.Proofs.Roles.Grammar

The grammar gives each name its role.  A phrase that goes on after a value adds the
nodes of its tokens to those of the value; a statement is told where it begins.
-/

namespace CallGrammar

variable {σ : Type}

/-! ## calls that go on -/

def Expr.isCall : Expr σ → Bool
  | call _ _ _ _ => true
  | _ => false

/-- What goes on after a value is the value itself if no tokens follow, and else no
call. -/
def Phrase.Wraps : (p : Phrase σ) → List (Token σ) → p.Value → Prop
  | operators _ first, ts, v | suffixes first, ts, v | continued first, ts, v =>
    (ts = [] ∧ v = first) ∨ (ts ≠ [] ∧ Expr.isCall v = false)
  | _, _, _ => True

/-- What goes on after a value is the value, or no call any more. -/
theorem Reads.wraps [Location σ] {context : Context σ} {p : Phrase σ} {ts after : List (Token σ)}
    {v : p.Value} (h : Reads context p ts after v) : p.Wraps ts v := by
  induction h with
  | noOperator _ => exact .inl ⟨rfl, rfl⟩
  | operator _ _ _ _ _ _ ihrest =>
    obtain ⟨-, rfl⟩ | ⟨-, hcall⟩ := ihrest
    · exact .inr ⟨List.cons_ne_nil _ _, rfl⟩
    · exact .inr ⟨List.cons_ne_nil _ _, hcall⟩
  | noSuffix _ _ => exact .inl ⟨rfl, rfl⟩
  | method _ _ _ _ _ _ _ ihrest =>
    obtain ⟨-, rfl⟩ | ⟨-, hcall⟩ := ihrest
    · exact .inr ⟨List.cons_ne_nil _ _, rfl⟩
    · exact .inr ⟨List.cons_ne_nil _ _, hcall⟩
  | access _ _ _ _ _ _ _ ihrest =>
    obtain ⟨-, rfl⟩ | ⟨-, hcall⟩ := ihrest
    · exact .inr ⟨List.cons_ne_nil _ _, rfl⟩
    · exact .inr ⟨List.cons_ne_nil _ _, hcall⟩
  | continued _ _ ihleft ihrest =>
    obtain ⟨rfl, rfl⟩ | ⟨hne, hcall⟩ := ihrest
    · rw [List.append_nil]
      exact ihleft
    · exact .inr ⟨List.append_ne_nil_of_right_ne_nil _ hne, hcall⟩
  | _ => trivial

/-! ## tokens that give nodes -/

/-- No name, and no dot. -/
def Kind.isPlain (k : Kind) : Bool := !isName k && k != .symbol .dot

/-- After anything but a dot, the tokens give the nodes, and the statement begins at
the first of them. -/
def Gives (calls : StatementCalls) (stmt : Option (Stmt Span)) (ts after : List (Token Span))
    (nodes : List (Node Span)) : Prop :=
  ∀ previous, previous ≠ some (.symbol .dot) → Played calls stmt previous ts after nodes

/-- The same with the node of that statement. -/
def Walks (calls : StatementCalls) (ts after : List (Token Span)) (nodes : List (Node Span)) :
    Prop :=
  ∀ previous, previous ≠ some (.symbol .dot) → Walked calls previous ts after nodes

section

variable {calls : StatementCalls} {stmt : Option (Stmt Span)} {s : Stmt Span} {t : Token Span}
  {ts us rest after : List (Token Span)} {ns ms : List (Node Span)}

theorem Kind.isPlain_iff {k : Kind} (h : k.isPlain = true) :
    isName k = false ∧ some k ≠ some (.symbol .dot) := by
  simpa [isPlain] using h

theorem Gives.walks (h : Gives calls none ts after ns) : Walks calls ts after ns :=
  fun previous hp => (h previous hp).walked

/-- The statement that begins at the first token comes before its nodes. -/
theorem Gives.begin (h : Gives calls (some s) ts after ns) :
    Walks calls ts after (.stmt s :: ns) :=
  fun previous hp => (h previous hp).walked

theorem Gives.nil : Gives calls none [] after [] := fun _ _ => .nil

/-- A token that is neither a name nor a dot gives nothing. -/
theorem Gives.skip (ht : t.kind.isPlain = true) (h : Walks calls ts after ns) :
    Gives calls none (t :: ts) after ns :=
  fun _ _ => .skip (Kind.isPlain_iff ht).1 (h _ (Kind.isPlain_iff ht).2)

/-- Or it gives a word. -/
theorem Gives.leaf (ht : t.kind.isPlain = true) (w : Word) (h : Walks calls ts after ns) :
    Gives calls none (t :: ts) after (.leaf w :: ns) :=
  fun _ _ => .leaf (Kind.isPlain_iff ht).1 w (h _ (Kind.isPlain_iff ht).2)

/-- Before the same tokens, however they are put together. -/
theorem Gives.of_eq (h : Gives calls stmt ts rest ns) (hrest : rest = after) :
    Gives calls stmt ts after ns :=
  hrest ▸ h

/-- Nodes of tidy tokens, one run after the other: none begins behind a dot. -/
theorem Gives.append (hts : Tidy ts) (h : Gives calls stmt ts (us ++ after) ns)
    (h' : Gives calls none us after ms) : Gives calls stmt (ts ++ us) after (ns ++ ms) :=
  fun previous hp => (h previous hp).append (h' _ (hts.lastKind_ne_dot hp))

theorem Walks.append (hts : Tidy ts) (h : Walks calls ts (us ++ after) ns)
    (h' : Walks calls us after ms) : Walks calls (ts ++ us) after (ns ++ ms) :=
  fun previous hp => (h previous hp).append (h' _ (hts.lastKind_ne_dot hp))

theorem Gives.newlines (h : Newlines ts) : Gives calls none ts after [] := fun _ _ => .newlines h

theorem Gives.after_newlines (h : Newlines ts) (h' : Gives calls none us after ms) :
    Gives calls none (ts ++ us) after ms :=
  Gives.append (.newlines h) (.newlines h) h'

theorem Walks.after_newlines (h : Newlines ts) (h' : Walks calls us after ms) :
    Walks calls (ts ++ us) after ms :=
  Walks.append (.newlines h) (Gives.newlines h).walks h'

/-- A closing bracket gives no node. -/
theorem Walks.close (hts : Tidy ts) (h : Walks calls ts (t :: after) ns)
    (ht : t.kind.isPlain = true) : Walks calls (ts ++ [t]) after ns := by
  have hclose := Walks.append hts h (Gives.skip ht Gives.nil.walks).walks
  rw [List.append_nil] at hclose
  exact hclose

/-- Neither does the bracket that opens them. -/
theorem Gives.brackets {opener : Token Span} (hts : Tidy ts)
    (h : Walks calls ts (t :: after) ns) (hopener : opener.kind.isPlain = true)
    (ht : t.kind.isPlain = true) : Gives calls none (opener :: (ts ++ [t])) after ns :=
  .skip hopener (.close hts h ht)

theorem Gives.separators (h : Separators ts) : Gives calls none ts after [] :=
  fun _ _ => .separators h

/-- A statement begins at a word that is no name. -/
theorem Gives.start (ht : t.kind.isPlain = true) (hs : Covers s.span (t :: ts))
    (h : Walks calls ts after ns) : Gives calls (some s) (t :: ts) after ns :=
  fun previous hp => (Gives.skip ht h previous hp).begin
    (fun text hk => by
      have hkind : t.kind = .name text := Option.some.inj hk
      have hname : isName t.kind = true := by rw [hkind]; rfl
      rw [(Kind.isPlain_iff ht).1] at hname
      cases hname) hs

/-- A name, the role given by what follows. -/
theorem Gives.name {text : String} {role : Role Span} (ht : t.kind = .name text)
    (hstmt : ∀ s ∈ stmt, s.span.start = t.span.start)
    (hrole : ∀ previous, previous ≠ some (.symbol .dot) →
      PlaysRole calls text previous (ts ++ after) (stmt.isSome = true)
        (∃ s ∈ stmt, Covers s.span (t :: callTokens (ts ++ after))) role)
    (h : Walks calls ts after ns) : Gives calls stmt (t :: ts) after (.name text role :: ns) := by
  intro previous hp
  have hown : Own calls stmt previous t (ts ++ after) [.name text role] :=
    own_name ht (hrole previous hp)
  exact .cons_walked hstmt hown (h (some t.kind) (by rw [ht]; nofun))

/-- A method after its dot. -/
theorem Gives.method {dot : Token Span} {text : String} {args : List (Expr Span)}
    (lambda : Option (Lambda Span)) (hdot : dot.kind = .symbol .dot) (ht : t.kind = .name text)
    (hargs : args ≠ [] → headKind (ts ++ after) = some (.symbol .openParen))
    (h : Walks calls ts after ns) :
    Gives calls none (dot :: t :: ts) after (.name text (.method args lambda) :: ns) := by
  intro previous hp
  have hown : Own calls none (some dot.kind) t (ts ++ after) [.name text (.method args lambda)] :=
    own_name ht (.of_dot (congrArg some hdot) hargs)
  have hname := Played.cons_walked (fun s hs => absurd hs (Option.not_mem_none s)) hown
    (h (some t.kind) (by rw [ht]; nofun))
  exact .skip (by rw [hdot]; rfl) hname.walked

/-- All nodes, where none are prior. -/
theorem Gives.of_prior {nodes : List (Node Span)}
    (h : ∃ ns, nodes = [] ++ ns ∧ Gives calls none ts after ns) :
    Gives calls none ts after nodes := by
  obtain ⟨ns, rfl, h⟩ := h
  exact h

end

/-! ## nodes of phrases -/

/-- The nodes of what a phrase has been given already. -/
def Phrase.prior : Phrase Span → List (Node Span)
  | operators _ first | suffixes first | continued first | valueStatement first => first.nodes
  | lambdaBody _ params => params.map Ident.var
  | _ => []

/-- The tokens of the phrase give the nodes of its value that are not prior to it. -/
def Phrase.Plays (calls : StatementCalls) :
    (p : Phrase Span) → (ts after : List (Token Span)) → p.Value → Prop
  | callOf callee, ts, after, v => ∃ span args lambda, v = .call span callee args lambda ∧
      Gives calls none ts after (exprsNodes args ++ lambdaNodes lambda)
  | statements, ts, after, v => Walks calls ts after (stmtsNodes v)
  | alternative _, ts, after, v => Walks calls ts after (blockNodes v)
  | program, ts, after, v => Walks calls ts after (Program.nodes v)
  | statement, ts, after, v => Gives calls (some v) ts after (Stmt.inside v)
  | conditional _, ts, after, v => Gives calls (some v) ts after (Stmt.inside v)
  | callable, ts, after, .statement stmt => Gives calls (some stmt) ts after stmt.inside
  | callable, ts, after, .value expr => expr.isCall = false →
    ∀ (s : Stmt Span) (us : List (Token Span)), Sorted (ts ++ us) → Covers s.span (ts ++ us) →
      Gives calls (some s) ts after expr.nodes
  | p, ts, after, v => ∃ ns, p.nodes v = p.prior ++ ns ∧ Gives calls none ts after ns

theorem isPlain_of_isInert {k : Kind} (h : k.isInert = true) : k.isPlain = true := by
  cases k with
  | symbol s => cases s <;> first | rfl | cases h
  | name => cases h
  | _ => rfl

theorem isPlain_closer (construct : Construct) :
    Kind.isPlain (.symbol construct.closer) = true := by
  cases construct <;> rfl

theorem isPlain_of_opensCondition {sense : Sense} {k : Kind} (h : opensCondition sense k = true) :
    k.isPlain = true := by
  unfold opensCondition at h
  split at h <;> first | rfl | cases h

/-- What is called has a parenthesis behind its name. -/
theorem headKind_of_callOf {context : Context Span} {callee : Ident Span} {call : Expr Span}
    {ts after : List (Token Span)} (h : Reads context (.callOf callee) ts after call) :
    headKind (ts ++ after) = some (.symbol .openParen) :=
  have hopens : BeginsWith isParen ts := h.opens
  hopens.paren after

/-- The value of a name in statement position is no call when a statement is made of
it: an assignment sign would follow the call, which is no target. -/
theorem isCall_of_callable {context : Context Span} {expr : Expr Span} {stmt : Stmt Span}
    {ts us after : List (Token Span)} (h : Reads context .callable ts (us ++ after) (.value expr))
    (hstmt : Reads context (.valueStatement expr) us after stmt) : expr.isCall = false := by
  cases hcall : expr.isCall with
  | false => rfl
  | true =>
    have hassign : headKind (us ++ after) = some (.symbol .assign) := by
      cases h with
      | callValue _ _ _ hwhole =>
        apply hwhole
        cases expr with
        | call span callee args lambda => exact ⟨span, callee, args, lambda, rfl⟩
        | _ => cases hcall
      | wordValue _ _ _ hrest =>
        obtain ⟨-, rfl⟩ | ⟨-, hnot⟩ := hrest.wraps
        · cases hcall
        · rw [hcall] at hnot
          cases hnot
    cases hstmt with
    | assignment _ htarget =>
      cases expr with
      | call => cases htarget
      | _ => cases hcall
    | noAssignment hafter => exact absurd hassign hafter

/-- The statement that covers the tokens begins where they do. -/
theorem start_of_covers {s : Stmt Span} {t : Token Span} {ts : List (Token Span)}
    (h : Covers s.span (t :: ts)) : ∀ s' ∈ some s, s'.span.start = t.span.start := by
  rintro s' hs'
  cases hs'
  exact h.start_eq

/-! ## statements that begin with a name -/

namespace Phrase.Plays

variable {context : Context Span} {t : Token Span} {name : String}
  {ts us after : List (Token Span)} {expr call whole : Expr Span} {stmt : Stmt Span}

/-- The value of a name begins the statement that is made of it. -/
theorem callableValue (hs : Sorted (ts ++ us))
    (hcallable : Reads context .callable ts (us ++ after) (.value expr))
    (hstmt : Reads context (.valueStatement expr) us after stmt)
    (ih : Plays context.calls .callable ts (us ++ after) (.value expr))
    (ihstmt : Plays context.calls (.valueStatement expr) us after stmt) :
    Plays context.calls .statement (ts ++ us) after stmt := by
  obtain ⟨ns, heq, hrest⟩ := ihstmt
  have hcovers : Covers stmt.span (ts ++ us) := (Reads.callableValue hcallable hstmt).extends hs
  have hfirst := ih (isCall_of_callable hcallable hstmt) stmt us hs hcovers
  change Gives context.calls (some stmt) (ts ++ us) after stmt.inside
  rw [show stmt.inside = expr.nodes ++ ns from heq]
  exact .append hcallable.tidy hfirst hrest

/-- A statement that begins with no name gives the nodes of its value, and of what goes on. -/
theorem value (hs : Sorted (ts ++ us)) (hname : ∀ text, headKind ts ≠ some (.name text))
    (hexpr : Reads context (.expression 0) ts (us ++ after) expr)
    (hstmt : Reads context (.valueStatement expr) us after stmt)
    (ih : Plays context.calls (.expression 0) ts (us ++ after) expr)
    (ihstmt : Plays context.calls (.valueStatement expr) us after stmt) :
    Plays context.calls .statement (ts ++ us) after stmt := by
  obtain ⟨ns, heq, hrest⟩ := ihstmt
  have hcovers : Covers stmt.span (ts ++ us) := (Reads.value hname hexpr hstmt).extends hs
  have hall := Gives.append hexpr.tidy (.of_prior ih) hrest
  have hhead : ∀ text, headKind (ts ++ us) ≠ some (.name text) := by
    obtain ⟨t, ts', rfl, -⟩ := hexpr.opens
    exact hname
  change Gives context.calls (some stmt) (ts ++ us) after stmt.inside
  rw [show stmt.inside = expr.nodes ++ ns from heq]
  exact fun previous hp => (hall previous hp).begin hhead hcovers

/-- A call that nothing goes on with is the whole statement. -/
theorem wholeCall {span : Span} {callee : Ident Span} {args : List (Expr Span)}
    {lambda : Option (Lambda Span)} (hs : Sorted (t :: (ts ++ us))) (ht : t.kind = .name name)
    (hcall : Reads context (.callOf ⟨name, t.span⟩) ts (us ++ after) call)
    (hrest : Reads context (.continued call) us after (.call span callee args lambda))
    (hafter : headKind after ≠ some (.symbol .assign))
    (ih : Plays context.calls (.callOf ⟨name, t.span⟩) ts (us ++ after) call) :
    Plays context.calls .callable (t :: (ts ++ us)) after
      (.statement (.invoke span callee args lambda)) := by
  have hcovers : Covers (Stmt.invoke span callee args lambda).span (t :: (ts ++ us)) :=
    (Reads.wholeCall ht hcall hrest hafter).extends hs
  obtain ⟨rfl, rfl⟩ | ⟨-, hnot⟩ := hrest.wraps
  · obtain ⟨span', args', lambda', heq, hall⟩ := ih
    cases heq
    rw [List.append_nil] at hcovers
    have hparen := headKind_of_callOf hcall
    have htokens := callTokens_of_callOf hcall
    have hwhole : ∃ s ∈ some (Stmt.invoke span ⟨name, t.span⟩ args lambda),
        Covers s.span (t :: callTokens (ts ++ after)) := by
      rw [List.nil_append] at htokens
      rw [htokens]
      exact ⟨_, rfl, hcovers⟩
    rw [List.append_nil]
    exact .name ht (start_of_covers hcovers) (fun _ hp => .of_whole hp hparen hwhole) hall.walks
  · cases hnot

/-- A call that goes on is only a part of the statement. -/
theorem callValue (ht : t.kind = .name name)
    (hcall : Reads context (.callOf ⟨name, t.span⟩) ts (us ++ after) call)
    (hrest : Reads context (.continued call) us after whole)
    (ih : Plays context.calls (.callOf ⟨name, t.span⟩) ts (us ++ after) call)
    (ihrest : Plays context.calls (.continued call) us after whole) :
    Plays context.calls .callable (t :: (ts ++ us)) after (.value whole) := by
  intro hnot s us' hsorted hcovers
  obtain ⟨span, args, lambda, rfl, hall⟩ := ih
  have hne : us ≠ [] := by
    obtain ⟨-, rfl⟩ | ⟨hne, -⟩ := hrest.wraps
    · cases hnot
    · exact hne
  obtain ⟨ns, heq, hcontinued⟩ := ihrest
  have hparen := headKind_of_callOf hcall
  have htokens := callTokens_of_callOf hcall
  -- what goes on after the call belongs to the statement, too
  have hpart : ¬ ∃ s' ∈ some s, Covers s'.span (t :: callTokens ((ts ++ us) ++ after)) := by
    rintro ⟨s', hs', hcall⟩
    cases hs'
    rw [List.append_assoc, htokens] at hcall
    rw [List.cons_append, List.append_assoc] at hsorted hcovers
    have hcovers : Covers s.span ((t :: ts) ++ (us ++ us')) := hcovers
    have hne := List.append_ne_nil_of_left_ne_nil hne us'
    exact Covers.not_covers_append hsorted hcovers hne hcall
  have hnodes : whole.nodes
      = .name name (.called args lambda) :: ((exprsNodes args ++ lambdaNodes lambda) ++ ns) := by
    have heq : whole.nodes = (Expr.call span ⟨name, t.span⟩ args lambda).nodes ++ ns := heq
    rw [heq, Expr.nodes, List.cons_append]
  rw [hnodes]
  have hbody := Gives.append hcall.tidy hall hcontinued
  rw [← List.append_assoc] at hparen
  exact .name ht (start_of_covers hcovers) (fun _ hp => .of_call hp hparen hpart) hbody.walks

/-- The arguments follow the name without a parenthesis. -/
theorem bareCall {args : List (Expr Span)} (hs : Sorted (t :: ts)) (ht : t.kind = .name name)
    (hbegins :
      Grammar.beginsArgument (headKind (ts ++ after)) (headTouches (ts ++ after)) = true)
    (hargs : Reads context .bareArguments ts after args)
    (hcount : args.length ≤ 1 ∨ name ∈ context.calls)
    (ih : Plays context.calls .bareArguments ts after args) :
    Plays context.calls .callable (t :: ts) after
      (.statement (.invoke (through t.span ts) ⟨name, t.span⟩ args none)) := by
  have hcovers :
      Covers (Stmt.invoke (through t.span ts) ⟨name, t.span⟩ args none).span (t :: ts) :=
    (Reads.bareCall ht hbegins hargs hcount).extends hs
  have hparen : headKind (ts ++ after) ≠ some (.symbol .openParen) := by
    intro hk
    rw [hk] at hbegins
    cases hbegins
  have hne : args ≠ [] := by
    cases hargs with
    | bareArguments => exact List.cons_ne_nil _ _
  have hcalls : 2 ≤ args.length → name ∈ context.calls := by
    intro hlen
    obtain hlen' | hcalls := hcount
    · omega
    · exact hcalls
  have hbody : Walks context.calls ts after (exprsNodes args ++ lambdaNodes none) := by
    rw [lambdaNodes, List.append_nil]
    exact (Gives.of_prior ih).walks
  exact .name ht (start_of_covers hcovers)
    (fun _ hp => .of_bare hp hparen rfl hbegins hne hcalls) hbody

/-- Neither a parenthesis nor an argument follows the name. -/
theorem wordValue (ht : t.kind = .name name)
    (hparen : headKind (ts ++ after) ≠ some (.symbol .openParen))
    (hbegins :
      Grammar.beginsArgument (headKind (ts ++ after)) (headTouches (ts ++ after)) = false)
    (ih : Plays context.calls (.continued (.word t.span name)) ts after whole) :
    Plays context.calls .callable (t :: ts) after (.value whole) := by
  intro hnot s us hsorted hcovers
  obtain ⟨ns, heq, hcontinued⟩ := ih
  have hnodes : whole.nodes = .name name .word :: ns := heq
  have hword : ¬ ((some s).isSome = true ∧
      Grammar.beginsArgument (headKind (ts ++ after)) (headTouches (ts ++ after)) = true) := by
    rintro ⟨-, h⟩
    rw [hbegins] at h
    cases h
  rw [hnodes]
  exact .name ht (start_of_covers hcovers) (fun _ hp => .of_word hp hparen hword)
    hcontinued.walks

end Phrase.Plays

/-! ## the other rules -/

namespace Phrase.Plays

variable {context : Context Span} {t opener closer comma arrow : Token Span} {name : String}
  {first left value : Expr Span} {args items keys : List (Expr Span)}
  {nl nl' nl₁ nl₂ nl₃ nl₄ ts us vs after : List (Token Span)}

theorem moreParameters {place : Span} {params : List (Ident Span)} (hnl : Newlines nl)
    (ht : t.kind = .var name) (hnl' : Newlines nl') (hcomma : comma.kind = .symbol .comma)
    (ih : Plays context.calls (.parameters place) ts after params) :
    Plays context.calls (.parameters place) (nl ++ t :: (nl' ++ comma :: ts)) after
      (⟨name, t.span⟩ :: params) := by
  have hrest := Gives.skip (by rw [hcomma]; rfl) (Gives.of_prior ih).walks
  have hname := Gives.leaf (by rw [ht]; rfl) (.var name) (Gives.after_newlines hnl' hrest).walks
  exact ⟨_, rfl, .after_newlines hnl hname⟩

/-- A value, and what goes on after it. -/
theorem before (hts : CallGrammar.Tidy ts)
    (ihleft : Plays context.calls .operand ts (us ++ after) left)
    (ihrest : Plays context.calls (.continued left) us after value) :
    Plays context.calls .operand (ts ++ us) after value := by
  obtain ⟨ns, heq, hrest⟩ := ihrest
  exact ⟨_, heq, .append hts (.of_prior ihleft) hrest⟩

/-- The operator is a node between those of its operands. -/
theorem operator {floor : Nat} {right : Expr Span} {op : BinaryOp} {place : Span}
    (ht : BinaryOp.ofKind? t.kind = some op) (hnl : Newlines nl)
    (hright : Reads context (.expression (op.level + 1)) ts (us ++ after) right)
    (ihright : Plays context.calls (.expression (op.level + 1)) ts (us ++ after) right)
    (ihrest : Plays context.calls (.operators floor (.binary place op left right)) us after value) :
    Plays context.calls (.operators floor left) (t :: (nl ++ (ts ++ us))) after value := by
  obtain ⟨ns, heq, hrest⟩ := ihrest
  have hoperand := Gives.append hright.tidy (.of_prior ihright) hrest
  have hplain : t.kind.isPlain = true := isPlain_of_isInert (BinaryOp.inert ht)
  refine ⟨_, heq.trans ?_,
    .leaf hplain (.operator op.kind) (Gives.after_newlines hnl hoperand).walks⟩
  simp [Phrase.prior, Phrase.nodes, Expr.nodes]

/-- The method is the name behind its dot; a list of arguments begins with a parenthesis. -/
theorem method {dot : Token Span} {lambda : Option (Lambda Span)} {place : Span}
    (hdot : dot.kind = .symbol .dot) (ht : t.kind = .name name)
    (hargs : Reads context .optionalArguments ts (us ++ (vs ++ after)) args)
    (hlambda : Reads context .optionalLambda us (vs ++ after) lambda)
    (ihargs : Plays context.calls .optionalArguments ts (us ++ (vs ++ after)) args)
    (ihlambda : Plays context.calls .optionalLambda us (vs ++ after) lambda)
    (ihrest : Plays context.calls (.suffixes (.method place first ⟨name, t.span⟩ args lambda))
      vs after value) :
    Plays context.calls (.suffixes first) (dot :: t :: (ts ++ (us ++ vs))) after value := by
  obtain ⟨ns, heq, hrest⟩ := ihrest
  have hlist := Gives.append hlambda.tidy (.of_prior ihlambda) hrest
  have hall := Gives.append hargs.tidy ((Gives.of_prior ihargs).of_eq (by simp)) hlist
  have hparen : args ≠ [] →
      headKind ((ts ++ (us ++ vs)) ++ after) = some (.symbol .openParen) := by
    intro hne
    cases hargs with
    | noArguments => exact absurd rfl hne
    | someArguments hargs =>
      have hopens : BeginsWith isParen ts := hargs.opens
      exact (hopens.append (us ++ vs)).paren after
  refine ⟨_, heq.trans ?_, .method lambda hdot ht hparen hall.walks⟩
  simp [Phrase.prior, Phrase.nodes, Expr.nodes]

theorem access {place : Span} (hopener : opener.kind = .symbol .openBracket)
    (hkeys : Reads context (.elements .access) ts (closer :: (us ++ after)) keys)
    (hcloser : closer.kind = .symbol .closeBracket)
    (ihkeys : Plays context.calls (.elements .access) ts (closer :: (us ++ after)) keys)
    (ihrest : Plays context.calls (.suffixes (.access place first keys)) us after value) :
    Plays context.calls (.suffixes first) (opener :: (ts ++ closer :: us)) after value := by
  obtain ⟨ns, heq, hrest⟩ := ihrest
  have hclose := Gives.skip (by rw [hcloser]; rfl) hrest.walks
  have hall : Gives context.calls none (ts ++ closer :: us) after (exprsNodes keys ++ ns) :=
    .append hkeys.tidy (.of_prior ihkeys) hclose
  refine ⟨_, heq.trans ?_, .skip (by rw [hopener]; rfl) hall.walks⟩
  simp [Phrase.prior, Expr.nodes]

theorem hash {place : Span} {found : List (Entry Span)}
    (hopener : opener.kind = .symbol .openBrace) (hnl : Newlines nl)
    (hfound : Reads context .entries ts (closer :: after) found)
    (hcloser : closer.kind = .symbol .closeBrace)
    (ih : Plays context.calls .entries ts (closer :: after) found) :
    Plays context.calls .primary (opener :: (nl ++ (ts ++ [closer]))) after
      (.hash place found) := by
  have hinside := Walks.close hfound.tidy (Gives.of_prior ih).walks (by rw [hcloser]; rfl)
  refine ⟨_, ?_, .skip (by rw [hopener]; rfl) (.after_newlines hnl hinside)⟩
  simp [Phrase.prior, Phrase.nodes, Expr.nodes]

theorem parentheses {place : Span} (hopener : opener.kind = .symbol .openParen)
    (hnl : Newlines nl)
    (hinner : Reads context (.expression 0) ts (nl' ++ closer :: after) value)
    (hnl' : Newlines nl') (hcloser : closer.kind = .symbol .closeParen)
    (ih : Plays context.calls (.expression 0) ts (nl' ++ closer :: after) value) :
    Plays context.calls .primary (opener :: (nl ++ (ts ++ (nl' ++ [closer])))) after
      (value.withSpan place) := by
  have hclose : Gives context.calls none (nl' ++ [closer]) after [] :=
    .after_newlines hnl' (.skip (by rw [hcloser]; rfl) Gives.nil.walks)
  have hinside := Gives.append hinner.tidy ((Gives.of_prior ih).of_eq (by simp)) hclose
  refine ⟨_, ?_, .skip (by rw [hopener]; rfl) (Gives.after_newlines hnl hinside).walks⟩
  simp [Phrase.prior, Phrase.nodes]

theorem lastElement {construct : Construct} (hnl : Newlines nl)
    (hitem : Reads context (.expression 0) ts (nl' ++ after) value) (hnl' : Newlines nl')
    (ih : Plays context.calls (.expression 0) ts (nl' ++ after) value) :
    Plays context.calls (.elements construct) (nl ++ (ts ++ nl')) after [value] := by
  have hall := Gives.append hitem.tidy (.of_prior ih) (.newlines hnl')
  refine ⟨_, ?_, .after_newlines hnl hall⟩
  simp [Phrase.prior, Phrase.nodes, exprsNodes]

theorem moreElements {construct : Construct} (hnl : Newlines nl)
    (hitem : Reads context (.expression 0) ts (nl' ++ comma :: (us ++ after)) value)
    (hnl' : Newlines nl') (hcomma : comma.kind = .symbol .comma)
    (ih : Plays context.calls (.expression 0) ts (nl' ++ comma :: (us ++ after)) value)
    (ihrest : Plays context.calls (.elements construct) us after items) :
    Plays context.calls (.elements construct) (nl ++ (ts ++ (nl' ++ comma :: us))) after
      (value :: items) := by
  have hrest := Gives.skip (by rw [hcomma]; rfl) (Gives.of_prior ihrest).walks
  have hall := Gives.append hitem.tidy ((Gives.of_prior ih).of_eq (by simp))
    (Gives.after_newlines hnl' hrest)
  refine ⟨_, ?_, .after_newlines hnl hall⟩
  simp [Phrase.prior, Phrase.nodes, exprsNodes]

/-- A key, its arrow and what follows. -/
theorem entry {key : Expr Span} {ns : List (Node Span)} {rest : List (Token Span)}
    (hkey : Reads context (.expression 0) ts rest key) (hnl₁ : Newlines nl₁)
    (harrow : arrow.kind = .symbol .arrow) (hnl₂ : Newlines nl₂)
    (ihkey : Plays context.calls (.expression 0) ts rest key)
    (h : Gives context.calls none us after ns)
    (hrest : rest = nl₁ ++ arrow :: (nl₂ ++ us) ++ after) :
    Gives context.calls none (ts ++ (nl₁ ++ arrow :: (nl₂ ++ us))) after (key.nodes ++ ns) := by
  have hafter := Gives.skip (by rw [harrow]; rfl) (Gives.after_newlines hnl₂ h).walks
  exact .append hkey.tidy ((Gives.of_prior ihkey).of_eq hrest) (Gives.after_newlines hnl₁ hafter)

theorem lastEntry {key : Expr Span}
    (hkey : Reads context (.expression 0) ts
      (nl₁ ++ arrow :: (nl₂ ++ (us ++ (nl₃ ++ after)))) key)
    (hnl₁ : Newlines nl₁) (harrow : arrow.kind = .symbol .arrow) (hnl₂ : Newlines nl₂)
    (hvalue : Reads context (.expression 0) us (nl₃ ++ after) value) (hnl₃ : Newlines nl₃)
    (ihkey : Plays context.calls (.expression 0) ts
      (nl₁ ++ arrow :: (nl₂ ++ (us ++ (nl₃ ++ after)))) key)
    (ihvalue : Plays context.calls (.expression 0) us (nl₃ ++ after) value) :
    Plays context.calls .entries (ts ++ (nl₁ ++ arrow :: (nl₂ ++ (us ++ nl₃)))) after
      [⟨key, value⟩] := by
  have hall := Gives.append hvalue.tidy (.of_prior ihvalue) (.newlines hnl₃)
  refine ⟨_, ?_, entry hkey hnl₁ harrow hnl₂ ihkey hall (by simp)⟩
  simp [Phrase.prior, Phrase.nodes, entriesNodes, Entry.nodes]

theorem moreEntries {key : Expr Span} {found : List (Entry Span)}
    (hkey : Reads context (.expression 0) ts
      (nl₁ ++ arrow :: (nl₂ ++ (us ++ (nl₃ ++ comma :: (nl₄ ++ (vs ++ after)))))) key)
    (hnl₁ : Newlines nl₁) (harrow : arrow.kind = .symbol .arrow) (hnl₂ : Newlines nl₂)
    (hvalue : Reads context (.expression 0) us (nl₃ ++ comma :: (nl₄ ++ (vs ++ after))) value)
    (hnl₃ : Newlines nl₃) (hcomma : comma.kind = .symbol .comma) (hnl₄ : Newlines nl₄)
    (ihkey : Plays context.calls (.expression 0) ts
      (nl₁ ++ arrow :: (nl₂ ++ (us ++ (nl₃ ++ comma :: (nl₄ ++ (vs ++ after)))))) key)
    (ihvalue : Plays context.calls (.expression 0) us
      (nl₃ ++ comma :: (nl₄ ++ (vs ++ after))) value)
    (ihrest : Plays context.calls .entries vs after found) :
    Plays context.calls .entries
      (ts ++ (nl₁ ++ arrow :: (nl₂ ++ (us ++ (nl₃ ++ comma :: (nl₄ ++ vs)))))) after
      (⟨key, value⟩ :: found) := by
  have hrest := Gives.after_newlines hnl₄ (.of_prior ihrest)
  have hcomma := Gives.skip (by rw [hcomma]; rfl) hrest.walks
  have hall := Gives.append hvalue.tidy ((Gives.of_prior ihvalue).of_eq (by simp))
    (Gives.after_newlines hnl₃ hcomma)
  refine ⟨_, ?_, entry hkey hnl₁ harrow hnl₂ ihkey hall (by simp)⟩
  simp [Phrase.prior, Phrase.nodes, entriesNodes, Entry.nodes]

theorem moreArguments (hcomma : comma.kind = .symbol .comma) (hnl : Newlines nl)
    (hfirst : Reads context (.expression 0) ts (us ++ after) first)
    (ihfirst : Plays context.calls (.expression 0) ts (us ++ after) first)
    (ihrest : Plays context.calls .moreBareArguments us after args) :
    Plays context.calls .moreBareArguments (comma :: (nl ++ (ts ++ us))) after
      (first :: args) := by
  have hall := Gives.append hfirst.tidy (.of_prior ihfirst) (.of_prior ihrest)
  refine ⟨_, ?_, .skip (by rw [hcomma]; rfl) (Gives.after_newlines hnl hall).walks⟩
  simp [Phrase.prior, Phrase.nodes, exprsNodes]

/-- A name that begins no statement is a word where no parenthesis follows. -/
theorem word (ht : t.kind = .name name) (hparen : headKind after ≠ some (.symbol .openParen)) :
    Plays context.calls .callOrWord [t] after (.word t.span name) := by
  have hnot : ¬ ((none : Option (Stmt Span)).isSome = true ∧
      Grammar.beginsArgument (headKind after) (headTouches after) = true) :=
    fun h => Bool.false_ne_true h.1
  exact ⟨_, rfl, .name ht (fun s hs => absurd hs (Option.not_mem_none s))
    (fun _ hp => .of_word hp hparen hnot) Gives.nil.walks⟩

/-- A name that begins no statement is a call where one follows. -/
theorem call (ht : t.kind = .name name)
    (hcall : Reads context (.callOf ⟨name, t.span⟩) ts after value)
    (ih : Plays context.calls (.callOf ⟨name, t.span⟩) ts after value) :
    Plays context.calls .callOrWord (t :: ts) after value := by
  obtain ⟨span, args, lambda, rfl, hall⟩ := ih
  have hnot : ¬ ∃ s ∈ (none : Option (Stmt Span)),
      Covers s.span (t :: callTokens (ts ++ after)) := by
    rintro ⟨s, hs, -⟩
    exact absurd hs (Option.not_mem_none s)
  exact ⟨_, rfl, .name ht (fun s hs => absurd hs (Option.not_mem_none s))
    (fun _ hp => .of_call hp (headKind_of_callOf hcall) hnot) hall.walks⟩

theorem lambda {params : List (Ident Span)} {body : Lambda Span} {place : Span}
    (hopener : opener.kind = .symbol .pipe)
    (hparams : Reads context (.parameters place) ts (closer :: (us ++ after)) params)
    (hcloser : closer.kind = .symbol .pipe)
    (ihparams : Plays context.calls (.parameters place) ts (closer :: (us ++ after)) params)
    (ihbody : Plays context.calls (.lambdaBody place params) us after body) :
    Plays context.calls .lambda (opener :: (ts ++ closer :: us)) after body := by
  obtain ⟨ns, heq, hbody⟩ := ihbody
  have hclose := Gives.skip (by rw [hcloser]; rfl) hbody.walks
  have hall : Gives context.calls none (ts ++ closer :: us) after (params.map Ident.var ++ ns) :=
    .append (.flat hparams.tidy) (.of_prior ihparams) hclose
  exact ⟨_, heq, .skip (by rw [hopener]; rfl) hall.walks⟩

theorem block {construct : Construct} {stmts : List (Stmt Span)} {place : Span}
    (hopener : opener.kind = .symbol .openBrace)
    (hstmts : Reads context .statements ts (closer :: after) stmts)
    (hcloser : closer.kind = .symbol construct.closer)
    (ih : Plays context.calls .statements ts (closer :: after) stmts) :
    Plays context.calls (.block construct) (opener :: (ts ++ [closer])) after
      ⟨place, stmts⟩ := by
  refine ⟨_, ?_, .brackets hstmts.tidy ih (by rw [hopener]; rfl)
    (by rw [hcloser]; exact isPlain_closer construct)⟩
  simp [Phrase.prior, Phrase.nodes, Block.nodes]

/-- A conditional begins with its word and covers what it is made of. -/
theorem conditional {sense : Sense} {thenBranch : Block Span} {elseBranch : Option (Block Span)}
    (hs : Sorted (t :: (ts ++ (us ++ vs)))) (ht : opensCondition sense t.kind = true)
    (hcondition : Reads context (.expression 0) ts (us ++ (vs ++ after)) value)
    (hthen : Reads context (.block (Grammar.branchConstruct sense)) us (vs ++ after) thenBranch)
    (helse : Reads context (.alternative sense) vs after elseBranch)
    (ihcondition : Plays context.calls (.expression 0) ts (us ++ (vs ++ after)) value)
    (ihthen : Plays context.calls (.block (Grammar.branchConstruct sense)) us (vs ++ after)
      thenBranch)
    (ihelse : Plays context.calls (.alternative sense) vs after elseBranch) :
    Plays context.calls (.conditional sense) (t :: (ts ++ (us ++ vs))) after
      (.conditional (through t.span (ts ++ (us ++ vs))) sense value thenBranch elseBranch) := by
  have hbranches := Walks.append (hthen.tidy (Grammar.closer_branchConstruct sense)).1
    (Gives.of_prior ihthen).walks ihelse
  have hall := Walks.append hcondition.tidy
    ((Gives.of_prior ihcondition).of_eq (by simp)).walks hbranches
  exact .start (isPlain_of_opensCondition ht)
    ((Reads.conditional ht hcondition hthen helse).extends hs) hall

/-- Suffixes and then operators add their nodes. -/
theorem continued (hleft : Reads context (.suffixes first) ts (us ++ after) left)
    (ihleft : Plays context.calls (.suffixes first) ts (us ++ after) left)
    (ihrest : Plays context.calls (.operators 0 left) us after value) :
    Plays context.calls (.continued first) (ts ++ us) after value := by
  obtain ⟨ns, heq, hsuffixes⟩ := ihleft
  obtain ⟨ms, heq', hoperators⟩ := ihrest
  have hnodes := heq'.trans (congrArg (· ++ ms) heq)
  exact ⟨_, hnodes.trans (List.append_assoc _ _ _), .append hleft.tidy hsuffixes hoperators⟩

end Phrase.Plays

/-! ## every phrase -/

/-- The tokens of a phrase give the nodes of its value, each name in its role. -/
theorem Reads.plays {context : Context Span} {p : Phrase Span} {ts after : List (Token Span)}
    {v : p.Value} (h : Reads context p ts after v) :
    Sorted ts → p.Plays context.calls ts after v := by
  induction h with
  | noParameters hnl _ => exact fun _ => ⟨[], rfl, .newlines hnl⟩
  | lastParameter hnl ht hnl' _ =>
    exact fun _ => ⟨_, rfl, .after_newlines hnl
      (.leaf (by rw [ht]; rfl) _ (Gives.newlines hnl').walks)⟩
  | moreParameters hnl ht hnl' hcomma _ ih =>
    exact fun hs => .moreParameters hnl ht hnl' hcomma (ih hs.right.tail.right.tail)
  | expression hleft _ ihleft ihrest =>
    exact fun hs => Phrase.Plays.before hleft.tidy (ihleft hs.left) (ihrest hs.right)
  | noOperator _ => exact fun _ => ⟨[], (List.append_nil _).symm, .nil⟩
  | operator ht _ hnl hright _ ihright ihrest =>
    exact fun hs =>
      .operator ht hnl hright (ihright hs.tail.right.left) (ihrest hs.tail.right.right)
  | @sign _ op _ _ _ ht _ ih =>
    exact fun hs => ⟨_, rfl, .leaf (isPlain_of_isInert (UnaryOp.inert ht)) (.operator op.kind)
      (Gives.of_prior (ih hs.tail)).walks⟩
  | operand hfirst _ ihfirst ihrest =>
    exact fun hs => Phrase.Plays.before hfirst.tidy (ihfirst hs.left) (ihrest hs.right)
  | noSuffix _ _ => exact fun _ => ⟨[], (List.append_nil _).symm, .nil⟩
  | method hdot ht hargs hlambda _ ihargs ihlambda ihrest =>
    exact fun hs => .method hdot ht hargs hlambda (ihargs hs.tail.tail.left)
      (ihlambda hs.tail.tail.right.left) (ihrest hs.tail.tail.right.right)
  | access hopener _ hkeys hcloser _ _ ihkeys ihrest =>
    exact fun hs =>
      .access hopener hkeys hcloser (ihkeys hs.tail.left) (ihrest hs.tail.right.tail)
  | var ht => exact fun _ => ⟨_, rfl, .leaf (by rw [ht]; rfl) _ Gives.nil.walks⟩
  | reference ht => exact fun _ => ⟨_, rfl, .leaf (by rw [ht]; rfl) _ Gives.nil.walks⟩
  | literal ht =>
    exact fun _ => ⟨_, rfl, .leaf (isPlain_of_isInert (Literal.inert ht)) _ Gives.nil.walks⟩
  | name _ ih => exact ih
  | array hopener hitems hcloser ih =>
    intro hs
    refine ⟨_, ?_, .brackets hitems.tidy (Gives.of_prior (ih hs.tail.left)).walks
      (by rw [hopener]; rfl) (by rw [hcloser]; rfl)⟩
    simp [Phrase.prior, Phrase.nodes, Expr.nodes]
  | hash hopener hnl hfound hcloser ih =>
    exact fun hs => .hash hopener hnl hfound hcloser (ih hs.tail.right.left)
  | parentheses hopener hnl hinner hnl' hcloser ih =>
    exact fun hs => .parentheses hopener hnl hinner hnl' hcloser (ih hs.tail.right.left)
  | noElements hnl _ => exact fun _ => ⟨[], rfl, .newlines hnl⟩
  | lastElement hnl hitem hnl' _ _ ih =>
    exact fun hs => .lastElement hnl hitem hnl' (ih hs.right.left)
  | moreElements hnl hitem hnl' hcomma _ ih ihrest =>
    exact fun hs => .moreElements hnl hitem hnl' hcomma (ih hs.right.left)
      (ihrest hs.right.right.right.tail)
  | noEntries _ => exact fun _ => ⟨[], rfl, .nil⟩
  | lastEntry hkey hnl₁ harrow hnl₂ hvalue hnl₃ _ _ ihkey ihvalue =>
    exact fun hs => .lastEntry hkey hnl₁ harrow hnl₂ hvalue hnl₃ (ihkey hs.left)
      (ihvalue hs.right.right.tail.right.left)
  | moreEntries hkey hnl₁ harrow hnl₂ hvalue hnl₃ hcomma hnl₄ _ _ ihkey ihvalue ihrest =>
    intro hs
    have hafter := hs.right.right.tail.right
    exact .moreEntries hkey hnl₁ harrow hnl₂ hvalue hnl₃ hcomma hnl₄ (ihkey hs.left)
      (ihvalue hafter.left) (ihrest hafter.right.right.tail.right)
  | arguments hopener hargs hcloser ih =>
    exact fun hs => ⟨_, rfl, .brackets hargs.tidy (Gives.of_prior (ih hs.tail.left)).walks
      (by rw [hopener]; rfl) (by rw [hcloser]; rfl)⟩
  | noArguments _ => exact fun _ => ⟨[], rfl, .nil⟩
  | someArguments _ ih => exact ih
  | bareArguments hfirst _ ihfirst ihrest =>
    intro hs
    refine ⟨_, ?_, .append hfirst.tidy (.of_prior (ihfirst hs.left)) (.of_prior (ihrest hs.right))⟩
    simp [Phrase.prior, Phrase.nodes, exprsNodes]
  | noMoreArguments _ => exact fun _ => ⟨[], rfl, .nil⟩
  | moreArguments hcomma hnl hfirst _ ihfirst ihrest =>
    exact fun hs => .moreArguments hcomma hnl hfirst (ihfirst hs.tail.right.left)
      (ihrest hs.tail.right.right)
  | word ht hparen => exact fun _ => .word ht hparen
  | call ht hcall ih => exact fun hs => .call ht hcall (ih hs.tail)
  | callOf hargs _ ihargs ihlambda =>
    exact fun hs => ⟨_, _, _, rfl, .append hargs.tidy.1 (.of_prior (ihargs hs.left))
      (.of_prior (ihlambda hs.right))⟩
  | noLambda _ _ => exact fun _ => ⟨[], rfl, .nil⟩
  | someLambda _ ih => exact ih
  | lambdaNoList ht _ ih =>
    intro hs
    obtain ⟨ns, heq, hbody⟩ := ih hs.tail
    exact ⟨ns, heq, .skip (by rw [ht]; rfl) hbody.walks⟩
  | lambda hopener hparams hcloser _ ihparams ihbody =>
    exact fun hs =>
      .lambda hopener hparams hcloser (ihparams hs.tail.left) (ihbody hs.tail.right.tail)
  | lambdaBody hnl _ ih =>
    intro hs
    refine ⟨_, ?_, .after_newlines hnl (.of_prior (ih hs.right))⟩
    simp [Phrase.prior, Phrase.nodes, Lambda.nodes]
  | block hopener hstmts hcloser ih =>
    exact fun hs => .block hopener hstmts hcloser (ih hs.tail.left)
  | noStatements hseps _ => exact fun _ => (Gives.separators hseps).walks
  | moreStatements hseps hfirst _ _ ihfirst ihrest =>
    intro hs
    have hall := Walks.append hfirst.tidy (ihfirst hs.right.left).begin (ihrest hs.right.right)
    exact .append (.separators hseps) (Gives.separators hseps).walks hall
  | branching _ _ ih => exact ih
  | invocation _ ih => exact ih
  | callableValue hcallable hstmt ih ihstmt =>
    exact fun hs => .callableValue hs hcallable hstmt (ih hs.left) (ihstmt hs.right)
  | value hname hexpr hstmt ih ihstmt =>
    exact fun hs => .value hs hname hexpr hstmt (ih hs.left) (ihstmt hs.right)
  | assignment ht _ hnl _ ih =>
    exact fun hs => ⟨_, rfl, .skip (by rw [ht]; rfl)
      (Gives.after_newlines hnl (.of_prior (ih hs.tail.right))).walks⟩
  | noAssignment _ => exact fun _ => ⟨[], (List.append_nil _).symm, .nil⟩
  | conditional ht hcondition hthen helse ihcondition ihthen ihelse =>
    exact fun hs => .conditional hs ht hcondition hthen helse (ihcondition hs.tail.left)
      (ihthen hs.tail.right.left) (ihelse hs.tail.right.right)
  | noAlternative _ _ => exact fun _ => Gives.nil.walks
  | elsifAlternative hnl _ _ ih =>
    intro hs
    have hall := Walks.after_newlines hnl (ih hs.right).begin
    simpa [stmtNode, Phrase.Plays, blockNodes, Block.nodes, stmtsNodes] using hall
  | elseAlternative hnl ht _ ih =>
    intro hs
    have hbody := Gives.skip (by rw [ht]; rfl) (Gives.of_prior (ih hs.right.tail)).walks
    exact (Gives.after_newlines hnl hbody).walks
  | wholeCall ht hcall hrest hafter ihcall _ =>
    exact fun hs => .wholeCall hs ht hcall hrest hafter (ihcall hs.tail.left)
  | callValue ht hcall hrest _ ihcall ihrest =>
    exact fun hs => .callValue ht hcall hrest (ihcall hs.tail.left) (ihrest hs.tail.right)
  | bareCall ht hbegins hargs hcount ih =>
    exact fun hs => .bareCall hs ht hbegins hargs hcount (ih hs.tail)
  | wordValue ht hparen hbegins _ ih =>
    exact fun hs => .wordValue ht hparen hbegins (ih hs.tail)
  | continued hleft _ ihleft ihrest =>
    exact fun hs => .continued hleft (ihleft hs.left) (ihrest hs.right)
  | noProgram _ ih => exact ih
  | program _ _ ih => exact ih

end CallGrammar
