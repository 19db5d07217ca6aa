import CallGrammar.Proofs.Progress
import CallGrammar.Proofs.Roles.Grammar
import CallGrammar.Proofs.StatementCalls

/-!
# CallGrammar.Proofs.Positions

One name, two ways to read on.  At the start of a statement the name is read with its
call, then its suffixes and operators; in an expression it is a primary, the first
operand of the first level of operators.  Where no argument without parentheses can
begin, the two take the same steps, with different bounds on nested calls, and they
differ only in what they make of the call at the end.
-/

namespace CallGrammar

variable {σ : Type}

/-- The value of an expression that begins a statement, before a token of kind `next`: a
call that is not assigned to is invoked. -/
def Grammar.Callable.ofExpr (next : Option Kind) : Expr σ → Callable σ
  | .call span callee args lambda =>
    if next = some (.symbol .assign) then .value (.call span callee args lambda)
    else .statement (.invoke span callee args lambda)
  | expr => .value expr

namespace Grammar

open Parse

variable {context : Context σ} {c : Cursor σ} {text : String} {n m : Nat}

/-- What is no call is a value, whatever comes next. -/
theorem Callable.ofExpr_of_isCall {expr : Expr σ} (h : expr.isCall = false) (next : Option Kind) :
    Callable.ofExpr next expr = .value expr := by
  cases expr with
  | call => cases h
  | _ => rfl

/-- What an expression becomes at the start of a statement. -/
def conclude (expr : Expr σ) : Parse σ (Callable σ) := do
  pure (.ofExpr (← peek) expr)

@[simp] theorem run_conclude (expr : Expr σ) (context : Context σ) (c : Cursor σ) :
    (conclude expr).run context c = .done (.ofExpr c.kind? expr) c := rfl

variable [Location σ]

/-- A name that has been read, with its call if it is called. -/
def called (callee : Ident σ) (fuel : Nat) : Parse σ (Expr σ) := do
  match ← peek with
  | some (.symbol .openParen) => callOf callee fuel
  | _ => pure (.word callee.span callee.name)

/-! ## the two ways -/

/-- A name before a parenthesis is called. -/
theorem run_called_of_paren {α : Type} (h : c.kind? = some (.symbol .openParen)) (callee : Ident σ)
    (q : Expr σ → Parse σ α) :
    (called callee n >>= q).run context c = (callOf callee n >>= q).run context c := by
  rw [run_bind, run_bind, called, run_peek_bind, h]

/-- A name before anything else is a word. -/
theorem run_called_of_ne {α : Type} (h : c.kind? ≠ some (.symbol .openParen)) (callee : Ident σ)
    (q : Expr σ → Parse σ α) :
    (called callee n >>= q).run context c
      = (q (.word callee.span callee.name)).run context c := by
  have hcalled : (called callee n).run context c = .done (.word callee.span callee.name) c := by
    rw [called, run_peek_bind]
    split
    · next hparen => exact absurd hparen h
    · rfl
  rw [run_bind, hcalled]

/-- In an expression, a name is the first operand at the lowest level. -/
theorem run_expression_of_name (h : c.kind? = some (.name text)) :
    (expression 0 (n + 4)).run context c
      = (called ⟨text, c.place context.finish⟩ n >>= fun first => suffixes first (n + 2) >>=
          fun left => operators 0 left (n + 3)).run context c.next := by
  have hname : (callOrWord (n + 1)).run context c
      = (called ⟨text, c.place context.finish⟩ n).run context c.next := by
    rw [callOrWord, name, run_bind_assoc, run_peek_bind, h]
    rfl
  have hprimary : (primary (n + 2)).run context c
      = (called ⟨text, c.place context.finish⟩ n).run context c.next := by
    rw [← hname, primary, run_place_bind, run_peek_bind, h]
  have hoperand : (operand (n + 3)).run context c
      = (called ⟨text, c.place context.finish⟩ n >>= fun first =>
          suffixes first (n + 2)).run context c.next := by
    rw [operand, run_place_bind, run_peek_bind, h]
    change (primary (n + 2) >>= fun inner => suffixes inner (n + 2)).run context c = _
    rw [run_bind, hprimary, ← run_bind]
  rw [expression, run_bind, hoperand, ← run_bind, run_bind_assoc]

/-- Suffixes and operators leave a bare word, or make something that is no call. -/
theorem isCall_of_continued {span : σ} {expr : Expr σ} {d : Cursor σ}
    (h : (continued (.word span text) n).run context c = .done expr d) :
    expr.isCall = false := by
  obtain ⟨ts, -, hreads⟩ := (sound context n) (.continued _) c expr d trivial h
  obtain ⟨-, rfl⟩ | ⟨-, hcall⟩ := hreads.wraps
  · rfl
  · exact hcall

/-- At the start of a statement, it is read first. -/
theorem run_callable_of_name (h : c.kind? = some (.name text))
    (hnot : beginsArgument c.next.kind? c.next.touching = false) :
    (callable (n + 2)).run context c
      = (called ⟨text, c.place context.finish⟩ (n + 1) >>= fun first =>
          continued first (n + 1) >>= conclude).run context c.next := by
  rw [callable]
  simp only [name, run_bind_assoc, run_peek_bind, h, run_place_bind, run_advance_bind,
    run_pure_bind]
  by_cases hparen : c.next.kind? = some (.symbol .openParen)
  · rw [run_called_of_paren hparen, hparen]
    apply run_bind_congr
    intro first d _
    apply run_bind_congr
    intro whole d' _
    cases whole with
    | call span callee args lambda =>
      rw [run_peek_bind, run_conclude, Callable.ofExpr]
      split
      · next heq hassign =>
        rw [if_pos hassign]
        rfl
      · next heq hassign =>
        cases heq
        rw [if_neg hassign]
        rfl
      · next hother _ => exact (hother _ _ _ _ rfl).elim
    | _ => rfl
  · rw [run_called_of_ne hparen]
    split
    · next hopen => exact absurd hopen hparen
    rw [run_touching_bind, hnot, if_neg Bool.false_ne_true]
    apply run_bind_congr
    intro whole d' hrun
    rw [run_conclude, Callable.ofExpr_of_isCall (isCall_of_continued hrun)]
    rfl

/-! ## the same steps -/

/-- With a larger bound on each part, the second way ends as the first. -/
theorem called_follows (hnm : n ≤ m) (callee : Ident σ) :
    (Lockstep.deeper context).Follows none .token (Expr.map id) (called callee n)
      (called callee m) := by
  apply Lockstep.peek rfl
  intro k
  split
  · exact (Lockstep.deeper context).follows hnm (.callOf (callee.map id)) rfl
  · exact Lockstep.pure (Expr.map id) (.word callee.span callee.name)

theorem conclude_follows (expr : Expr σ) :
    (Lockstep.deeper context).Follows none .token (Callable.map id) (conclude expr)
      (conclude (expr.map id)) := by
  intro c d halike _
  refine ⟨d, ?_, halike⟩
  rw [run_conclude, halike.kind?, Expr.map_id, Callable.map_id]

/-- At the start of a statement, where no argument can begin, a name is read as the
expression it begins. -/
theorem callable_eq_expression (h : c.kind? = some (.name text))
    (hnot : beginsArgument c.next.kind? c.next.touching = false) :
    (callable (Parser.bound c)).run context c
      = (expression 0 (Parser.bound c) >>= conclude).run context c := by
  have hbound : Parser.bound c = (Parser.bound c - 4) + 4 := by
    unfold Parser.bound
    omega
  generalize Parser.bound c - 4 = n at hbound
  have hfirst : (expression 0 (n + 4) >>= conclude).run context c
      = (called ⟨text, c.place context.finish⟩ n >>= fun first =>
          (suffixes first (n + 2) >>= fun left => operators 0 left (n + 3)) >>=
            conclude).run context c.next := by
    rw [run_bind, run_expression_of_name h, ← run_bind, run_bind_assoc]
  have hafter : (Lockstep.deeper context).After (Callable.map id)
      ((expression 0 (n + 4) >>= conclude).run context c)
      ((callable (n + 6)).run context c) := by
    have hoperators (left : Expr σ) : (Lockstep.deeper context).Follows none .token (Expr.map id)
        (operators 0 left (n + 3)) (operators 0 (left.map id) (n + 4)) :=
      (Lockstep.deeper context).follows (Nat.le_add_right (n + 3) 1) (.operators 0 left) rfl
    have hcontinued (first : Expr σ) : (Lockstep.deeper context).Follows none .token (Expr.map id)
        (suffixes first (n + 2) >>= fun left => operators 0 left (n + 3))
        (continued (first.map id) (n + 5)) :=
      Lockstep.bind ((Lockstep.deeper context).follows (Nat.le_add_right (n + 2) 2)
        (.suffixes first) rfl) hoperators
    have hrest (first : Expr σ) : (Lockstep.deeper context).Follows none .token (Callable.map id)
        ((suffixes first (n + 2) >>= fun left => operators 0 left (n + 3)) >>= conclude)
        (continued (first.map id) (n + 5) >>= conclude) :=
      Lockstep.bind (hcontinued first) conclude_follows
    rw [hfirst, run_callable_of_name h hnot]
    exact Lockstep.bind (called_follows (by omega) _) hrest _ _ c.next.alike_id nofun
  have hdeeper : (callable (n + 6)).run context c = (callable (n + 4)).run context c := by
    rw [← hbound, show n + 6 = Parser.bound c + 2 by omega]
    exact Request.run_eq_of_le .callable (Nat.le_add_right _ 2) (Request.enough .callable context c)
  have hfirst : ((expression 0 (n + 4) >>= conclude).run context c).Along c ∧
      (expression 0 (n + 4) >>= conclude).run context c ≠ .exhausted := by
    have halong : ((expression 0 (n + 4)).run context c).Along c :=
      Request.along .expression (n + 4) context c
    have henough : (expression 0 (n + 4)).run context c ≠ .exhausted :=
      hbound ▸ Request.enough .expression context c
    rw [run_bind]
    cases hrun : (expression 0 (n + 4)).run context c with
    | done v d =>
      rw [hrun] at halong
      exact ⟨halong, nofun⟩
    | failed e d =>
      rw [hrun] at halong
      exact ⟨halong, nofun⟩
    | exhausted => exact absurd hrun henough
  have hsecond : ((callable (n + 6)).run context c).Along c :=
    Request.along .callable (n + 6) context c
  rw [hbound, ← hdeeper]
  exact Outcome.eq_of_after Callable.map_id hafter hfirst.1 hsecond hfirst.2

end Grammar

/-- **Positions**: from a name before a token that cannot begin an argument, a statement is
refused with the error and at the position where an expression is; or both are read up to the
same position, and the statement is the expression, but a call that is not assigned to is
invoked. -/
theorem Parser.callable_of_expression [Location σ] (p : Parser σ) {text : String}
    (hname : p.cursor.kind? = some (.name text))
    (hnext : ∀ kind ∈ p.cursor.next.kind?, ¬ StartsArgument kind p.cursor.next.touching) :
    (∃ e q, p.expression = (.error e, q) ∧ p.callable = (.error e, q)) ∨
      ∃ expr q, p.expression = (.ok expr, q) ∧
        p.callable = (.ok (.ofExpr q.cursor.kind? expr), q) := by
  have hnot : Grammar.beginsArgument p.cursor.next.kind? p.cursor.next.touching = false := by
    rw [← Bool.not_eq_true]
    intro hbegins
    obtain ⟨kind, hkind, hstarts⟩ := beginsArgument_iff.1 hbegins
    exact hnext kind hkind hstarts
  have hcallable : (Grammar.callable (bound p.cursor)).run p.context p.cursor = _ :=
    Grammar.callable_eq_expression hname hnot
  rw [Parse.run_bind] at hcallable
  cases hrun : (Grammar.expression 0 (bound p.cursor)).run p.context p.cursor with
  | done expr c =>
    rw [hrun] at hcallable
    exact .inr ⟨expr, { p with cursor := c }, read_of_done hrun, read_of_done hcallable⟩
  | failed e c =>
    rw [hrun] at hcallable
    exact .inl ⟨e, { p with cursor := c }, read_of_failed hrun, read_of_failed hcallable⟩
  | exhausted => exact absurd hrun (Request.enough .expression p.context p.cursor)

/-- A call that has a suffix is a value at the start of a statement, too. -/
theorem Parser.callable_of_expression_foo :
    let p := Parser.ofSource .default "foo(1).bar + 2"
    p.cursor.kind? = some (.name "foo") ∧
      p.cursor.next.kind? = some (.symbol .openParen) ∧
      ∃ expr q, p.expression = (.ok expr, q) ∧
        p.callable = (.ok (.ofExpr q.cursor.kind? expr), q) := by
  intro p
  have hname : p.cursor.kind? = some (.name "foo") := by decide +kernel
  have hparen : p.cursor.next.kind? = some (.symbol .openParen) := by decide +kernel
  have hnext : ∀ kind ∈ p.cursor.next.kind?, ¬ StartsArgument kind p.cursor.next.touching := by
    rw [hparen]
    rintro _ ⟨⟩ ⟨⟩
  have hok : p.expression.1.isOk = true := by decide +kernel
  refine ⟨hname, hparen, ?_⟩
  obtain ⟨e, q, hexpr, -⟩ | h := p.callable_of_expression hname hnext
  · rw [hexpr] at hok
    cases hok
  · exact h

end CallGrammar
