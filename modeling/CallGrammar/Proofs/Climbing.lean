import CallGrammar.Proofs.Nodes
import CallGrammar.Proofs.Reading.Complete
import CallGrammar.Proofs.Reading.Follow

/-!
# CallGrammar.Proofs.Climbing

The tree of an expression, told from its operators and operands alone.

1. An operand is a primary value with prefix signs before and suffixes behind it; the
   suffixes bind first, from left to right, then the signs, from right to left.
2. A run of operands with operators between them is split at the last operator of the
   lowest level, and so are the runs on both sides of it.

The grammar goes from left to right instead: it looks for operators of at least a level,
and for tighter ones in what is right of each.  `tree_cons` is one turn of that loop.
-/

namespace CallGrammar

/-- The tree without its places. -/
def Expr.shape {σ : Type} (e : Expr σ) : Expr Unit := e.map fun _ => ()

/-! ## operators by level -/

namespace BinaryOp

/-- The operators level by level, those that bind least first. -/
def levels : List (List BinaryOp) :=
  [[or], [and], [equal, notEqual, less, greater, lessEqual, greaterEqual], [elem], [add, sub],
    [mul, div, mod]]

/-- The number of the level of an operator. -/
def rank (op : BinaryOp) : Nat := levels.findIdx (·.contains op)

/-- The levels of the grammar are the ranks of the reference. -/
theorem level_eq_rank (op : BinaryOp) : op.level = op.rank := by
  cases op <;> rfl

theorem kind_inj {op op' : BinaryOp} (h : op.kind = op'.kind) : op = op' := by
  rw [← Option.some.injEq, ← ofKind?_kind, h, ofKind?_kind]

end BinaryOp

/-! ## the reference tree -/

/-- An operator with the operand on its right. -/
structure Step where
  op : BinaryOp
  right : Expr Unit

/-- The last of the steps `x :: xs` with an operator of the lowest level among them, between
the steps before and those after it. -/
def cut (x : Step) : List Step → List Step × Step × List Step
  | [] => ([], x, [])
  | y :: ys =>
    if x.op.rank < (cut y ys).2.1.op.rank then ([], x, y :: ys)
    else (x :: (cut y ys).1, (cut y ys).2)

/-- Cutting loses no step, and keeps their order. -/
theorem append_cut (x : Step) (xs : List Step) :
    (cut x xs).1 ++ (cut x xs).2.1 :: (cut x xs).2.2 = x :: xs := by
  induction xs generalizing x with
  | nil => rfl
  | cons y ys ih =>
    unfold cut
    split
    · rfl
    · exact congrArg (x :: ·) (ih y)

/-- The tree of an operand and the steps after it. -/
def tree (first : Expr Unit) : List Step → Expr Unit
  | [] => first
  | x :: xs =>
    .binary () (cut x xs).2.1.op (tree first (cut x xs).1)
      (tree (cut x xs).2.1.right (cut x xs).2.2)
termination_by steps => steps.length
decreasing_by
  all_goals
    have hlength := congrArg List.length (append_cut x xs)
    rw [List.length_append, List.length_cons] at hlength
    omega

/-- The operators before the cut are of its level or higher ones, those after it of higher
ones. -/
theorem rank_cut (x : Step) (xs : List Step) :
    (∀ y ∈ (cut x xs).1, (cut x xs).2.1.op.rank ≤ y.op.rank) ∧
      ∀ y ∈ (cut x xs).2.2, (cut x xs).2.1.op.rank < y.op.rank := by
  induction xs generalizing x with
  | nil => exact ⟨nofun, nofun⟩
  | cons y ys ih =>
    obtain ⟨hbefore, hafter⟩ := ih y
    unfold cut
    split
    · next hlt =>
      refine ⟨nofun, fun z hz => ?_⟩
      rw [← append_cut y ys, List.mem_append, List.mem_cons] at hz
      obtain hz | rfl | hz := hz
      · exact Nat.lt_of_lt_of_le hlt (hbefore z hz)
      · exact hlt
      · exact Nat.lt_trans hlt (hafter z hz)
    · next hle => exact ⟨List.forall_mem_cons.2 ⟨Nat.not_lt.1 hle, hbefore⟩, hafter⟩

/-- There is no other cut. -/
theorem cut_eq {before after xs : List Step} {x z : Step} (h : x :: xs = before ++ z :: after)
    (hbefore : ∀ y ∈ before, z.op.rank ≤ y.op.rank) (hafter : ∀ y ∈ after, z.op.rank < y.op.rank) :
    cut x xs = (before, z, after) := by
  induction before generalizing x xs with
  | nil =>
    obtain ⟨rfl, rfl⟩ := List.cons.inj h
    cases xs with
    | nil => rfl
    | cons y ys =>
      have hmem : (cut y ys).2.1 ∈ y :: ys := by
        rw [← append_cut y ys]
        simp
      rw [cut, if_pos (hafter _ hmem)]
  | cons b before ih =>
    rw [List.cons_append] at h
    obtain ⟨rfl, hxs⟩ := List.cons.inj h
    obtain ⟨hx, hbefore⟩ := List.forall_mem_cons.1 hbefore
    obtain ⟨y, ys, hys⟩ : ∃ y ys, before ++ z :: after = y :: ys :=
      List.exists_cons_of_ne_nil (by simp)
    have hcut := ih hys.symm hbefore
    rw [hxs, hys, cut, hcut, if_neg (Nat.not_lt.2 hx)]

/-- The tree is split at the last operator of the lowest level. -/
theorem tree_append_cons {first : Expr Unit} {before after : List Step} {z : Step}
    (hbefore : ∀ y ∈ before, z.op.rank ≤ y.op.rank) (hafter : ∀ y ∈ after, z.op.rank < y.op.rank) :
    tree first (before ++ z :: after)
      = .binary () z.op (tree first before) (tree z.right after) := by
  obtain ⟨x, xs, hxs⟩ : ∃ x xs, before ++ z :: after = x :: xs :=
    List.exists_cons_of_ne_nil (by simp)
  rw [hxs, tree, cut_eq hxs.symm hbefore hafter]

/-- A step is grouped with the steps of higher levels right after it, then with what is left
of it, if no higher level follows these. -/
theorem tree_cons {first : Expr Unit} {x : Step} {inner outer : List Step}
    (hinner : ∀ y ∈ inner, x.op.rank < y.op.rank)
    (houter : ∀ y ∈ outer.head?, y.op.rank ≤ x.op.rank) :
    tree first (x :: (inner ++ outer))
      = tree (.binary () x.op first (tree x.right inner)) outer := by
  induction hlength : outer.length using Nat.strongRecOn generalizing outer with
  | ind n ih =>
    cases outer with
    | nil =>
      rw [List.append_nil, tree.eq_1, ← List.nil_append (x :: inner),
        tree_append_cons (fun _ hy => absurd hy List.not_mem_nil) hinner, tree.eq_1]
    | cons y ys =>
      -- the split of the outer steps is the split of all of them
      obtain ⟨before, z, after, hsplit, hbefore, hafter⟩ : ∃ before z after,
          y :: ys = before ++ z :: after ∧ (∀ w ∈ before, z.op.rank ≤ w.op.rank) ∧
            ∀ w ∈ after, z.op.rank < w.op.rank :=
        ⟨_, _, _, (append_cut y ys).symm, rank_cut y ys⟩
      have hy : y.op.rank ≤ x.op.rank := houter y rfl
      have hz : z.op.rank ≤ x.op.rank ∧ ∀ w ∈ before.head?, w.op.rank ≤ x.op.rank := by
        cases before with
        | nil =>
          obtain ⟨rfl, -⟩ := List.cons.inj hsplit
          exact ⟨hy, nofun⟩
        | cons w before =>
          obtain ⟨rfl, -⟩ := List.cons.inj hsplit
          exact ⟨Nat.le_trans (hbefore y List.mem_cons_self) hy, fun _ hw => Option.some.inj hw ▸ hy⟩
      have hall : ∀ w ∈ x :: (inner ++ before), z.op.rank ≤ w.op.rank := by
        refine List.forall_mem_cons.2 ⟨hz.1, fun w hw => ?_⟩
        obtain hw | hw := List.mem_append.1 hw
        · exact Nat.le_of_lt (Nat.lt_of_le_of_lt hz.1 (hinner w hw))
        · exact hbefore w hw
      have hshorter : before.length < n := by
        rw [← hlength, hsplit, List.length_append, List.length_cons]
        omega
      have hleft : x :: (inner ++ (before ++ z :: after)) = (x :: (inner ++ before)) ++ z :: after := by
        simp
      rw [hsplit, hleft, tree_append_cons hall hafter, tree_append_cons hbefore hafter,
        ih _ hshorter hz.2 rfl]

/-- Steps as those of higher levels than `n` and those behind them. -/
theorem exists_tight (n : Nat) (steps : List Step) :
    ∃ inner outer, steps = inner ++ outer ∧ (∀ y ∈ inner, n < y.op.rank) ∧
      ∀ y ∈ outer.head?, y.op.rank ≤ n := by
  induction steps with
  | nil => exact ⟨[], [], rfl, nofun, nofun⟩
  | cons x xs ih =>
    by_cases hx : n < x.op.rank
    · obtain ⟨inner, outer, rfl, hinner, houter⟩ := ih
      exact ⟨x :: inner, outer, rfl, List.forall_mem_cons.2 ⟨hx, hinner⟩, houter⟩
    · exact ⟨[], x :: xs, rfl, nofun, fun y hy => Option.some.inj hy ▸ Nat.not_lt.1 hx⟩

/-! ## runs of tokens -/

/-- A suffix of an operand, with its parts. -/
inductive Suffix where
  | method (name : String) (args : List (Expr Unit)) (lambda : Option (Lambda Unit))
  | access (keys : List (Expr Unit))

/-- A value with a suffix. -/
def Suffix.on (target : Expr Unit) : Suffix → Expr Unit
  | method name args lambda => .method () target ⟨name, ()⟩ args lambda
  | access keys => .access () target keys

variable {σ : Type} [Location σ]

/-- The tokens are the suffixes: methods, with arguments in parentheses and a lambda or
without them, and accesses, whose opener touches what is before it. -/
inductive IsSuffixes (context : Context σ) : List (Token σ) → List Suffix → Prop where
  | nil : IsSuffixes context [] []
  | method {dot t : Token σ} {name : String} {args : List (Expr σ)} {lambda : Option (Lambda σ)}
      {ts us vs : List (Token σ)} {rest : List Suffix} (hdot : dot.kind = .symbol .dot)
      (ht : t.kind = .name name) (hargs : Reads context .optionalArguments ts [] args)
      (hlambda : Reads context .optionalLambda us [] lambda) (hrest : IsSuffixes context vs rest) :
      IsSuffixes context (dot :: t :: (ts ++ (us ++ vs)))
        (.method name (args.map Expr.shape) (mapLambda (fun _ => ()) lambda) :: rest)
  | access {opener closer : Token σ} {keys : List (Expr σ)} {ts us : List (Token σ)}
      {rest : List Suffix} (hopener : opener.kind = .symbol .openBracket)
      (htouching : opener.touching = true)
      (hkeys : Reads context (.elements .access) ts [closer] keys) (hne : keys ≠ [])
      (hcloser : closer.kind = .symbol .closeBracket) (hrest : IsSuffixes context us rest) :
      IsSuffixes context (opener :: (ts ++ closer :: us)) (.access (keys.map Expr.shape) :: rest)

/-- The tokens are an operand with this tree. -/
inductive IsOperand (context : Context σ) : List (Token σ) → Expr Unit → Prop where
  | mk {signs : List UnaryOp} {primary : Expr σ} {suffixes : List Suffix}
      {us ts vs : List (Token σ)} (hsigns : us.map (·.kind) = signs.map UnaryOp.kind)
      (hprimary : Reads context .primary ts [] primary)
      (hsuffixes : IsSuffixes context vs suffixes) :
      IsOperand context (us ++ (ts ++ vs))
        (signs.foldr (Expr.unary ()) (suffixes.foldl Suffix.on primary.shape))

/-- The tokens are operators, each with line breaks and an operand behind it. -/
inductive IsSteps (context : Context σ) : List (Token σ) → List Step → Prop where
  | nil : IsSteps context [] []
  | cons {op : BinaryOp} {right : Expr Unit} {t : Token σ} {nl ts us : List (Token σ)}
      {rest : List Step} (ht : t.kind = op.kind) (hnl : Newlines nl)
      (hright : IsOperand context ts right) (hrest : IsSteps context us rest) :
      IsSteps context (t :: (nl ++ (ts ++ us))) (⟨op, right⟩ :: rest)

/-! ## what may follow -/

/-- The tokens do not go on with a call: they begin with no parenthesis and no lambda. -/
structure EndsCall (after : List (Token σ)) : Prop where
  paren : headKind after ≠ some (.symbol .openParen)
  pipe : headKind after ≠ some (.symbol .pipe)
  pipes : headKind after ≠ some (.symbol .pipePipe)

/-- The tokens do not go on with an operand. -/
structure EndsOperand (after : List (Token σ)) : Prop extends EndsCall after where
  dot : headKind after ≠ some (.symbol .dot)
  bracket : headKind after = some (.symbol .openBracket) → headTouches after = false

/-- The tokens do not go on with an expression. -/
structure EndsExpression (after : List (Token σ)) : Prop extends EndsOperand after where
  operator : ∀ op : BinaryOp, headKind after ≠ some op.kind

section

variable {context : Context σ} {t : Token σ} {ts us rest after : List (Token σ)}

/-- A list in brackets is the same before any tokens. -/
theorem Reads.elements_before {construct : Construct} {items : List (Expr σ)} {closer : Token σ}
    (hcloser : closer.kind ≠ .newline)
    (h : Reads context (.elements construct) ts (closer :: rest) items) (after : List (Token σ)) :
    Reads context (.elements construct) ts (closer :: after) items :=
  h.before rfl (.of_cons hcloser rest after) (.inr rfl)

/-- Behind arguments in parentheses anything may follow. -/
theorem Reads.arguments_before {args : List (Expr σ)} (h : Reads context .arguments ts rest args)
    (after : List (Token σ)) : Reads context .arguments ts after args := by
  cases h with
  | arguments hopener hargs hcloser =>
    exact .arguments hopener (hargs.elements_before (by simp [hcloser]) after) hcloser

/-- Behind optional arguments anything may follow but a parenthesis where there are none. -/
theorem Reads.optionalArguments_before {args : List (Expr σ)}
    (h : Reads context .optionalArguments ts [] args)
    (hparen : headKind after ≠ some (.symbol .openParen)) :
    Reads context .optionalArguments ts after args := by
  cases h with
  | noArguments => exact .noArguments hparen
  | someArguments hargs => exact .someArguments (hargs.arguments_before after)

theorem Reads.lambdaBody_before {opener : σ} {params : List (Ident σ)} {lambda : Lambda σ}
    (h : Reads context (.lambdaBody opener params) ts [] lambda) (after : List (Token σ)) :
    Reads context (.lambdaBody opener params) ts after lambda := by
  cases h with
  | lambdaBody hnl hbody => exact .lambdaBody hnl (hbody.block_before after)

/-- Behind a lambda anything may follow. -/
theorem Reads.lambda_before {lambda : Lambda σ} (h : Reads context .lambda ts [] lambda)
    (after : List (Token σ)) : Reads context .lambda ts after lambda := by
  cases h with
  | lambdaNoList ht hbody => exact .lambdaNoList ht (hbody.lambdaBody_before after)
  | @lambda _ closer _ _ _ us _ hopener hparams hcloser hbody =>
    have hcalmer := Calmer.of_cons (t := closer) (by simp [hcloser]) (us ++ []) (us ++ after)
    exact .lambda hopener (hparams.before rfl hcalmer fun _ => rfl) hcloser
      (hbody.lambdaBody_before after)

/-- Behind an optional lambda anything may follow that ends a call. -/
theorem Reads.optionalLambda_before {lambda : Option (Lambda σ)}
    (h : Reads context .optionalLambda ts [] lambda) (hafter : EndsCall after) :
    Reads context .optionalLambda ts after lambda := by
  cases h with
  | noLambda => exact .noLambda hafter.pipe hafter.pipes
  | someLambda hlambda => exact .someLambda (hlambda.lambda_before after)

/-- A primary value is the same before any tokens that do not make a call of it. -/
theorem Reads.primary_before {e : Expr σ} (h : Reads context .primary ts [] e)
    (hafter : EndsCall after) : Reads context .primary ts after e := by
  cases h with
  | var ht => exact .var ht
  | reference ht => exact .reference ht
  | literal ht => exact .literal ht
  | array hopener hitems hcloser =>
    exact .array hopener (hitems.elements_before (by simp [hcloser]) after) hcloser
  | @hash _ closer _ _ _ _ hopener hnl hfound hcloser =>
    have hcalmer := Calmer.of_cons (t := closer) (by simp [hcloser]) [] after
    exact .hash hopener hnl (hfound.before rfl hcalmer (.inr rfl)) hcloser
  | @parentheses _ closer _ _ nl' _ _ hopener hnl hinner hnl' hcloser =>
    have hcalmer := (Calmer.of_cons (t := closer) (by simp [hcloser]) [] after).append nl'
    exact .parentheses hopener hnl (hinner.before rfl hcalmer trivial) hnl' hcloser
  | name hname =>
    refine .name ?_
    cases hname with
    | word ht _ => exact .word ht hafter.paren
    | call ht hcall =>
      refine .call ht ?_
      cases hcall with
      | callOf hargs hlambda =>
        exact .callOf (hargs.arguments_before _) (hlambda.optionalLambda_before hafter)

/-! ## reading a run -/

/-- Suffixes make no call of what they stand behind. -/
theorem IsSuffixes.endsCall {suffixes : List Suffix} (h : IsSuffixes context ts suffixes)
    (hafter : EndsCall after) : EndsCall (ts ++ after) := by
  cases h with
  | nil => exact hafter
  | method hdot => constructor <;> simp [hdot]
  | access hopener => constructor <;> simp [hopener]

/-- Suffixes are read behind any value. -/
theorem IsSuffixes.reads {suffixes : List Suffix} (h : IsSuffixes context ts suffixes)
    (hafter : EndsOperand after) (target : Expr σ) :
    ∃ value, Reads context (.suffixes target) ts after value ∧
      value.shape = suffixes.foldl Suffix.on target.shape := by
  induction h generalizing target with
  | nil => exact ⟨target, .noSuffix hafter.dot hafter.bracket, rfl⟩
  | @method dot t name args lambda ts us vs rest hdot ht hargs hlambda hrest ih =>
    have hvs := hrest.endsCall hafter.toEndsCall
    obtain ⟨value, hvalue, hshape⟩ := ih (.method (through target.span (dot :: t :: (ts ++ us)))
      target ⟨name, t.span⟩ args lambda)
    have hlambda' := hlambda.optionalLambda_before hvs
    have hparen : headKind (us ++ (vs ++ after)) ≠ some (.symbol .openParen) := by
      cases hlambda with
      | noLambda => exact hvs.paren
      | someLambda hlambda =>
        have hopens : BeginsWith isBar us := hlambda.opens
        exact hopens.head_ne rfl _
    refine ⟨value, .method hdot ht (hargs.optionalArguments_before hparen) hlambda' hvalue, ?_⟩
    rw [hshape, List.foldl_cons, Suffix.on, Expr.shape, Expr.map, mapExprs_eq_map]
    rfl
  | @access opener closer keys ts us rest hopener htouching hkeys hne hcloser hrest ih =>
    obtain ⟨value, hvalue, hshape⟩ := ih (.access (Location.merge target.span closer.span) target
      keys)
    have hkeys' := hkeys.elements_before (by simp [hcloser]) (us ++ after)
    refine ⟨value, .access hopener htouching hkeys' hcloser hne hvalue, ?_⟩
    rw [hshape, List.foldl_cons, Suffix.on, Expr.shape, Expr.map, mapExprs_eq_map]
    rfl

/-- An operand is read as its tree. -/
theorem IsOperand.reads {e : Expr Unit} (h : IsOperand context ts e) (hafter : EndsOperand after) :
    ∃ value, Reads context .operand ts after value ∧ value.shape = e := by
  cases h with
  | @mk signs primary suffixes us ts vs hsigns hprimary hsuffixes =>
    have hcall := hsuffixes.endsCall hafter.toEndsCall
    obtain ⟨value, hvalue, hshape⟩ := hsuffixes.reads hafter primary
    rw [← hshape]
    clear hshape
    induction signs generalizing us with
    | nil =>
      obtain rfl : us = [] := List.map_eq_nil_iff.1 hsigns
      have hoperand := Reads.operand (hprimary.primary_before hcall) hvalue
      exact ⟨value, hoperand, rfl⟩
    | cons sign signs ih =>
      obtain ⟨t, us, rfl, ht, hsigns⟩ := List.map_eq_cons_iff.1 hsigns
      obtain ⟨inner, hinner, hshape⟩ := ih hsigns
      have hsign : UnaryOp.ofKind? t.kind = some sign := by rw [ht, UnaryOp.ofKind?_kind]
      refine ⟨_, .sign hsign hinner, ?_⟩
      rw [List.foldr_cons, ← hshape, Expr.shape, Expr.map]
      rfl

namespace IsSteps

variable {steps : List Step}

/-- Operators do not go on with the operand that they stand behind. -/
theorem endsOperand (h : IsSteps context ts steps) (hafter : EndsOperand after) :
    EndsOperand (ts ++ after) := by
  cases h with
  | nil => exact hafter
  | @cons op right t nl us vs rest ht =>
    have hne {k : Kind} (hk : BinaryOp.ofKind? k = none) :
        headKind (t :: (nl ++ (us ++ vs)) ++ after) ≠ some k := by
      intro heq
      have hkind : k = op.kind := (Option.some.inj heq).symm.trans ht
      rw [hkind, BinaryOp.ofKind?_kind] at hk
      cases hk
    exact ⟨⟨hne rfl, hne rfl, hne rfl⟩, hne rfl, fun hk => absurd hk (hne rfl)⟩

/-- The tokens of some steps and of those behind them. -/
theorem of_append {xs ys : List Step} (h : IsSteps context ts (xs ++ ys)) :
    ∃ us vs, ts = us ++ vs ∧ IsSteps context us xs ∧ IsSteps context vs ys := by
  induction xs generalizing ts with
  | nil => exact ⟨[], ts, rfl, .nil, h⟩
  | cons x xs ih =>
    rw [List.cons_append] at h
    cases h with
    | cons ht hnl hright hrest =>
      obtain ⟨us, vs, rfl, hus, hvs⟩ := ih hrest
      refine ⟨_, vs, ?_, .cons ht hnl hright hus, hvs⟩
      simp

/-- What comes next is below a level if the first step is, or what follows where there is no
step. -/
theorem rank_lt_of_headKind (h : IsSteps context ts steps) {n : Nat}
    (hsteps : ∀ x ∈ steps.head?, x.op.rank < n)
    (hafter : ∀ op : BinaryOp, headKind after = some op.kind → op.rank < n) (op : BinaryOp)
    (hop : headKind (ts ++ after) = some op.kind) : op.rank < n := by
  cases h with
  | nil => exact hafter op hop
  | @cons op' _ _ _ _ _ _ ht =>
    obtain rfl : op' = op := BinaryOp.kind_inj (ht.symm.trans (Option.some.inj hop))
    exact hsteps _ rfl

/-- Steps of at least a level are read as the tree that they make of the value on their
left. -/
theorem reads (h : IsSteps context ts steps) (hafter : EndsOperand after) {floor : Nat}
    (hfloor : ∀ x ∈ steps, floor ≤ x.op.rank)
    (hlower : ∀ op : BinaryOp, headKind after = some op.kind → op.rank < floor) (left : Expr σ) :
    ∃ value, Reads context (.operators floor left) ts after value ∧
      value.shape = tree left.shape steps := by
  induction hlength : steps.length using Nat.strongRecOn
    generalizing steps ts after floor left with
  | ind n ih =>
    cases h with
    | nil =>
      refine ⟨left, .noOperator fun op hop => ?_, by rw [tree.eq_1]⟩
      obtain ⟨k, hk, hop⟩ := Option.bind_eq_some_iff.1 hop
      rw [op.level_eq_rank]
      exact hlower op (hk.trans (congrArg some (BinaryOp.kind_of_ofKind? hop).symm))
    | @cons op right t nl ts us rest ht hnl hright hrest =>
      obtain ⟨hop, htail⟩ := List.forall_mem_cons.1 hfloor
      -- the tighter operators behind the operand belong to it, the others to the value so far
      obtain ⟨inner, outer, rfl, hinner, houter⟩ := exists_tight op.rank rest
      obtain ⟨us, vs, rfl, hus, hvs⟩ := of_append hrest
      have hends := hvs.endsOperand hafter
      rw [List.length_cons, List.length_append] at hlength
      have hbelow : ∀ op' : BinaryOp, headKind (vs ++ after) = some op'.kind →
          op'.rank < op.rank + 1 :=
        hvs.rank_lt_of_headKind (fun y hy => Nat.lt_succ_of_le (houter y hy)) fun op' hop' =>
          Nat.lt_succ_of_lt (Nat.lt_of_lt_of_le (hlower op' hop') hop)
      obtain ⟨operand, hoperand, rfl⟩ := hright.reads (hus.endsOperand hends)
      obtain ⟨tight, htight, htightshape⟩ :=
        ih inner.length (by omega) hus hends (fun y hy => hinner y hy) hbelow operand rfl
      obtain ⟨value, hvalue, hshape⟩ := ih outer.length (by omega) hvs hafter
        (fun y hy => htail y (List.mem_append_right inner hy)) hlower
        (.binary (Location.merge left.span tight.span) op left tight) rfl
      have hkind : BinaryOp.ofKind? t.kind = some op := by rw [ht, BinaryOp.ofKind?_kind]
      rw [← op.level_eq_rank] at hop htight
      have hread := Reads.operator hkind hop hnl (.expression hoperand htight) hvalue
      refine ⟨value, hread.of_eq (by simp), ?_⟩
      calc value.shape
          = tree (.binary () op left.shape tight.shape) outer := by
            rw [hshape, Expr.shape, Expr.map]
            rfl
        _ = tree left.shape (⟨op, operand.shape⟩ :: (inner ++ outer)) := by
            rw [tree_cons hinner houter, htightshape]

end IsSteps

end

/-! ## expressions -/

/-- **Precedence**: an operand and steps, before what does not go on with an expression, are
read up to their end, as their tree. -/
theorem Parser.expression_of_operands {p : Parser σ} {ts us after : List (Token σ)}
    {first : Expr Unit} {steps : List Step} (hahead : p.cursor.ahead = ts ++ us ++ after)
    (hfirst : IsOperand p.context ts first) (hsteps : IsSteps p.context us steps)
    (hafter : EndsExpression after) :
    ∃ e, p.expression.1 = .ok e ∧ e.shape = tree first steps ∧
      p.cursor.Passes (ts ++ us) p.expression.2.cursor ∧ p.expression.2.cursor.ahead = after := by
  have hoperand := hafter.toEndsOperand
  obtain ⟨left, hleft, rfl⟩ := hfirst.reads (hsteps.endsOperand hoperand)
  obtain ⟨e, hrest, hshape⟩ := hsteps.reads hoperand (fun _ _ => Nat.zero_le _)
    (fun op hop => absurd hop (hafter.operator op)) left
  obtain hrun | ⟨c, hrun, hpasses, hc⟩ :=
    (Reads.expression hleft hrest).complete.reaches (bound p.cursor) hahead
  · have henough := Grammar.expression_within 0 (bound p.cursor) p.context p.cursor
      (by unfold bound; omega)
    exact absurd hrun henough.ne_exhausted
  · have hread : p.expression = (.ok e, { p with cursor := c }) := read_of_done hrun
    rw [hread]
    exact ⟨e, rfl, hshape, hpasses, hc⟩

/-- Subtractions group to the left, and the product behind the second one goes first. -/
theorem Parser.expression_of_operands_minus : ∃ e,
    (ofSource .default "1 - $a.f -\n!b * 2; c").expression.1 = .ok e ∧
    e.shape = .binary () .sub
      (.binary () .sub (.literal () (.integer "1")) (.method () (.var () "a") ⟨"f", ()⟩ [] none))
      (.binary () .mul (.unary () .not (.word () "b")) (.literal () (.integer "2"))) ∧
    (ofSource .default "1 - $a.f -\n!b * 2; c").expression.2.cursor.position = 11 := by
  generalize hp : ofSource .default "1 - $a.f -\n!b * 2; c" = p
  have hahead : p.cursor.ahead = [⟨.integer "1", ⟨0, 1⟩, false⟩] ++
      [⟨.symbol .minus, ⟨2, 3⟩, false⟩, ⟨.var "a", ⟨4, 6⟩, false⟩,
        ⟨.symbol .dot, ⟨6, 7⟩, true⟩, ⟨.name "f", ⟨7, 8⟩, true⟩,
        ⟨.symbol .minus, ⟨9, 10⟩, false⟩, ⟨.newline, ⟨10, 11⟩, true⟩,
        ⟨.symbol .bang, ⟨11, 12⟩, false⟩, ⟨.name "b", ⟨12, 13⟩, true⟩,
        ⟨.symbol .star, ⟨14, 15⟩, false⟩, ⟨.integer "2", ⟨16, 17⟩, false⟩]
      ++ [⟨.symbol .semicolon, ⟨17, 18⟩, true⟩, ⟨.name "c", ⟨19, 20⟩, false⟩] := by
    rw [← hp]
    decide +kernel
  have hone : IsOperand p.context [⟨.integer "1", ⟨0, 1⟩, false⟩] (.literal () (.integer "1")) :=
    @IsOperand.mk _ _ _ [] _ [] [] [_] [] rfl (.literal rfl) .nil
  have hmethod : IsOperand p.context
      [⟨.var "a", ⟨4, 6⟩, false⟩, ⟨.symbol .dot, ⟨6, 7⟩, true⟩, ⟨.name "f", ⟨7, 8⟩, true⟩]
      (.method () (.var () "a") ⟨"f", ()⟩ [] none) :=
    @IsOperand.mk _ _ _ [] _ [.method "f" [] none] [] [_] [_, _] rfl (.var rfl)
      (@IsSuffixes.method _ _ _ _ _ _ [] none [] [] [] [] rfl rfl (.noArguments nofun)
        (.noLambda nofun nofun) .nil)
  have hnot : IsOperand p.context
      [⟨.symbol .bang, ⟨11, 12⟩, false⟩, ⟨.name "b", ⟨12, 13⟩, true⟩]
      (.unary () .not (.word () "b")) :=
    @IsOperand.mk _ _ _ [.not] _ [] [_] [_] [] rfl (.name (.word rfl nofun)) .nil
  have htwo : IsOperand p.context [⟨.integer "2", ⟨16, 17⟩, false⟩] (.literal () (.integer "2")) :=
    @IsOperand.mk _ _ _ [] _ [] [] [_] [] rfl (.literal rfl) .nil
  have hafter : @EndsExpression Span
      [⟨.symbol .semicolon, ⟨17, 18⟩, true⟩, ⟨.name "c", ⟨19, 20⟩, false⟩] :=
    ⟨⟨⟨nofun, nofun, nofun⟩, nofun, nofun⟩, fun op => by cases op <;> nofun⟩
  obtain ⟨e, hok, hshape, hpasses, -⟩ := expression_of_operands hahead hone
    (@IsSteps.cons _ _ _ .sub _ _ [] [_, _, _] _ _ rfl nofun hmethod
      (@IsSteps.cons _ _ _ .sub _ _ [_] [_, _] _ _ rfl (.cons rfl nofun) hnot
        (@IsSteps.cons _ _ _ .mul _ _ [] [_] [] _ rfl nofun htwo .nil))) hafter
  refine ⟨e, hok, ?_, ?_⟩
  · have hcut (l m r : Expr Unit) : cut ⟨.sub, l⟩ [⟨.sub, m⟩, ⟨.mul, r⟩]
        = ([⟨.sub, l⟩], ⟨.sub, m⟩, [⟨.mul, r⟩]) := rfl
    rw [hshape, tree, hcut]
    simp only [tree, cut]
  · have hstart : p.cursor.passed = [] := by
      rw [← hp]
      rfl
    rw [Cursor.position, hpasses.2, hstart]
    rfl

end CallGrammar
