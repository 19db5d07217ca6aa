import CallGrammar.Cursor

/-!
# CallGrammar.Proofs.Places

Trees, errors and phrases do not look at the places they carry.  `map f` puts
each node at the place that `f` gives; with a constant `f` it leaves only the
shape, so two trees are equal up to their places if `shape` makes them equal.
-/

namespace CallGrammar

variable {σ τ : Type}

/-! ## trees at other places -/

def Ident.map (f : σ → τ) (i : Ident σ) : Ident τ := ⟨i.name, f i.span⟩

mutual

def Expr.map (f : σ → τ) : Expr σ → Expr τ
  | .call s callee args lambda => .call (f s) (callee.map f) (mapExprs f args) (mapLambda f lambda)
  | .method s receiver callee args lambda =>
    .method (f s) (receiver.map f) (callee.map f) (mapExprs f args) (mapLambda f lambda)
  | .word s name => .word (f s) name
  | .reference s name => .reference (f s) name
  | .var s name => .var (f s) name
  | .literal s value => .literal (f s) value
  | .array s items => .array (f s) (mapExprs f items)
  | .hash s entries => .hash (f s) (mapEntries f entries)
  | .access s target keys => .access (f s) (target.map f) (mapExprs f keys)
  | .binary s op left right => .binary (f s) op (left.map f) (right.map f)
  | .unary s op operand => .unary (f s) op (operand.map f)

def mapExprs (f : σ → τ) : List (Expr σ) → List (Expr τ)
  | [] => []
  | e :: es => e.map f :: mapExprs f es

def Entry.map (f : σ → τ) : Entry σ → Entry τ
  | ⟨key, value⟩ => ⟨key.map f, value.map f⟩

def mapEntries (f : σ → τ) : List (Entry σ) → List (Entry τ)
  | [] => []
  | e :: es => e.map f :: mapEntries f es

def Lambda.map (f : σ → τ) : Lambda σ → Lambda τ
  | ⟨s, params, body⟩ => ⟨f s, params.map (Ident.map f), body.map f⟩

def mapLambda (f : σ → τ) : Option (Lambda σ) → Option (Lambda τ)
  | none => none
  | some lambda => some (lambda.map f)

def Block.map (f : σ → τ) : Block σ → Block τ
  | ⟨s, stmts⟩ => ⟨f s, mapStmts f stmts⟩

def mapBlock (f : σ → τ) : Option (Block σ) → Option (Block τ)
  | none => none
  | some block => some (block.map f)

def Stmt.map (f : σ → τ) : Stmt σ → Stmt τ
  | .invoke s callee args lambda =>
    .invoke (f s) (callee.map f) (mapExprs f args) (mapLambda f lambda)
  | .assign s target value => .assign (f s) (target.map f) (value.map f)
  | .conditional s sense condition thenBranch elseBranch =>
    .conditional (f s) sense (condition.map f) (thenBranch.map f) (mapBlock f elseBranch)
  | .expr s value => .expr (f s) (value.map f)

def mapStmts (f : σ → τ) : List (Stmt σ) → List (Stmt τ)
  | [] => []
  | s :: ss => s.map f :: mapStmts f ss

end

def Program.map (f : σ → τ) (p : Program σ) : Program τ := ⟨p.body.map f⟩

/-- The tree without its places. -/
def Program.shape (p : Program σ) : Program Unit := p.map fun _ => ()

def ParseError.map (f : σ → τ) : ParseError σ → ParseError τ
  | .strayComma s => .strayComma (f s)
  | .needsParentheses name s => .needsParentheses name (f s)
  | .unexpected expected found s => .unexpected expected found (f s)
  | .emptyAccess s => .emptyAccess (f s)
  | .unassignable s => .unassignable (f s)
  | .unterminated construct s => .unterminated construct (f s)

/-! ## what stays -/

/-- Each element is put at its places. -/
@[simp] theorem mapExprs_eq_map (f : σ → τ) (es : List (Expr σ)) :
    mapExprs f es = es.map (Expr.map f) := by
  induction es with
  | nil => rfl
  | cons e es ih => rw [mapExprs, ih, List.map_cons]

/-- Each statement is put at its places. -/
theorem mapStmts_eq_map (f : σ → τ) (ss : List (Stmt σ)) :
    mapStmts f ss = ss.map (Stmt.map f) := by
  induction ss with
  | nil => rfl
  | cons s ss ih => rw [mapStmts, ih, List.map_cons]

/-- The span of an expression is moved with it. -/
@[simp] theorem Expr.span_map (f : σ → τ) (e : Expr σ) : (e.map f).span = f e.span := by
  cases e <;> simp only [Expr.map, Expr.span]

/-- A span given to an expression is put where `f` puts it. -/
@[simp] theorem Expr.map_withSpan (f : σ → τ) (s : σ) (e : Expr σ) :
    (e.withSpan s).map f = (e.map f).withSpan (f s) := by
  cases e <;> simp only [Expr.map, Expr.withSpan]

/-- What may be assigned to is told without its places. -/
@[simp] theorem Expr.isAssignable_map (f : σ → τ) (e : Expr σ) :
    (e.map f).isAssignable = e.isAssignable := by
  cases e <;> simp only [Expr.map, Expr.isAssignable]

/-- The span of a statement is moved with it. -/
@[simp] theorem Stmt.span_map (f : σ → τ) (s : Stmt σ) : (s.map f).span = f s.span := by
  cases s <;> simp only [Stmt.map, Stmt.span]

theorem Program.stmts_map (f : σ → τ) (p : Program σ) :
    (p.map f).body.stmts = p.body.stmts.map (Stmt.map f) := by
  obtain ⟨span, stmts⟩ := p
  rw [← mapStmts_eq_map, Program.map, Block.map]

/-! ## no move -/

theorem map_ident_id (params : List (Ident σ)) : params.map (Ident.map id) = params := by
  induction params with
  | nil => rfl
  | cons p ps ih => rw [List.map_cons, ih]; rfl

mutual

/-- A tree whose places stay is the same. -/
theorem Expr.map_id : (e : Expr σ) → e.map id = e
  | .call s callee args lambda => by
      rw [Expr.map, mapExprs_id args, mapLambda_id lambda]; rfl
  | .method s receiver callee args lambda => by
      rw [Expr.map, receiver.map_id, mapExprs_id args, mapLambda_id lambda]; rfl
  | .word _ _ | .reference _ _ | .var _ _ | .literal _ _ => by rw [Expr.map]; rfl
  | .array s items => by rw [Expr.map, mapExprs_id items]; rfl
  | .hash s entries => by rw [Expr.map, mapEntries_id entries]; rfl
  | .access s target keys => by rw [Expr.map, target.map_id, mapExprs_id keys]; rfl
  | .binary s op left right => by rw [Expr.map, left.map_id, right.map_id]; rfl
  | .unary s op operand => by rw [Expr.map, operand.map_id]; rfl

theorem mapExprs_id : (es : List (Expr σ)) → mapExprs id es = es
  | [] => rfl
  | e :: es => by rw [mapExprs, e.map_id, mapExprs_id es]

theorem Entry.map_id : (e : Entry σ) → e.map id = e
  | ⟨key, value⟩ => by rw [Entry.map, key.map_id, value.map_id]

theorem mapEntries_id : (es : List (Entry σ)) → mapEntries id es = es
  | [] => rfl
  | e :: es => by rw [mapEntries, e.map_id, mapEntries_id es]

theorem Lambda.map_id : (l : Lambda σ) → l.map id = l
  | ⟨s, params, body⟩ => by rw [Lambda.map, map_ident_id params, body.map_id]; rfl

theorem mapLambda_id : (l : Option (Lambda σ)) → mapLambda id l = l
  | none => rfl
  | some l => by rw [mapLambda, l.map_id]

theorem Block.map_id : (b : Block σ) → b.map id = b
  | ⟨s, stmts⟩ => by rw [Block.map, mapStmts_id stmts]; rfl

theorem mapBlock_id : (b : Option (Block σ)) → mapBlock id b = b
  | none => rfl
  | some b => by rw [mapBlock, b.map_id]

theorem Stmt.map_id : (s : Stmt σ) → s.map id = s
  | .invoke s callee args lambda => by
      rw [Stmt.map, mapExprs_id args, mapLambda_id lambda]; rfl
  | .assign s target value => by rw [Stmt.map, target.map_id, value.map_id]; rfl
  | .conditional s sense condition thenBranch elseBranch => by
      rw [Stmt.map, condition.map_id, thenBranch.map_id, mapBlock_id elseBranch]; rfl
  | .expr s value => by rw [Stmt.map, value.map_id]; rfl

theorem mapStmts_id : (ss : List (Stmt σ)) → mapStmts id ss = ss
  | [] => rfl
  | s :: ss => by rw [mapStmts, s.map_id, mapStmts_id ss]

end

/-- A program at its own places is itself. -/
theorem Program.map_id (p : Program σ) : p.map id = p := by
  rw [Program.map, p.body.map_id]

/-- An error at its own place is itself. -/
theorem ParseError.map_id (e : ParseError σ) : e.map id = e := by
  cases e <;> rfl

/-! ## two moves -/

theorem map_ident_map {υ : Type} (f : σ → τ) (g : τ → υ) (params : List (Ident σ)) :
    (params.map (Ident.map f)).map (Ident.map g) = params.map (Ident.map (g ∘ f)) := by
  rw [List.map_map]
  rfl

section

variable {υ : Type} (f : σ → τ) (g : τ → υ)

mutual

/-- Places that are moved twice. -/
theorem Expr.map_map : (e : Expr σ) → (e.map f).map g = e.map (g ∘ f)
  | .call s callee args lambda => by
      simp only [Expr.map, mapExprs_map args, mapLambda_map lambda]; rfl
  | .method s receiver callee args lambda => by
      simp only [Expr.map, receiver.map_map, mapExprs_map args, mapLambda_map lambda]; rfl
  | .word _ _ | .reference _ _ | .var _ _ | .literal _ _ => by simp only [Expr.map]; rfl
  | .array s items => by simp only [Expr.map, mapExprs_map items]; rfl
  | .hash s entries => by simp only [Expr.map, mapEntries_map entries]; rfl
  | .access s target keys => by simp only [Expr.map, target.map_map, mapExprs_map keys]; rfl
  | .binary s op left right => by simp only [Expr.map, left.map_map, right.map_map]; rfl
  | .unary s op operand => by simp only [Expr.map, operand.map_map]; rfl

theorem mapExprs_map : (es : List (Expr σ)) →
    mapExprs g (mapExprs f es) = mapExprs (g ∘ f) es
  | [] => rfl
  | e :: es => by rw [mapExprs, mapExprs, e.map_map, mapExprs_map es, mapExprs]

theorem Entry.map_map : (e : Entry σ) → (e.map f).map g = e.map (g ∘ f)
  | ⟨key, value⟩ => by simp only [Entry.map, key.map_map, value.map_map]

theorem mapEntries_map : (es : List (Entry σ)) →
    mapEntries g (mapEntries f es) = mapEntries (g ∘ f) es
  | [] => rfl
  | e :: es => by rw [mapEntries, mapEntries, e.map_map, mapEntries_map es, mapEntries]

theorem Lambda.map_map : (l : Lambda σ) → (l.map f).map g = l.map (g ∘ f)
  | ⟨s, params, body⟩ => by simp only [Lambda.map, map_ident_map, body.map_map]; rfl

theorem mapLambda_map : (l : Option (Lambda σ)) →
    mapLambda g (mapLambda f l) = mapLambda (g ∘ f) l
  | none => rfl
  | some l => by rw [mapLambda, mapLambda, l.map_map, mapLambda]

theorem Block.map_map : (b : Block σ) → (b.map f).map g = b.map (g ∘ f)
  | ⟨s, stmts⟩ => by simp only [Block.map, mapStmts_map stmts]; rfl

theorem mapBlock_map : (b : Option (Block σ)) →
    mapBlock g (mapBlock f b) = mapBlock (g ∘ f) b
  | none => rfl
  | some b => by rw [mapBlock, mapBlock, b.map_map, mapBlock]

theorem Stmt.map_map : (s : Stmt σ) → (s.map f).map g = s.map (g ∘ f)
  | .invoke s callee args lambda => by
      simp only [Stmt.map, mapExprs_map args, mapLambda_map lambda]; rfl
  | .assign s target value => by simp only [Stmt.map, target.map_map, value.map_map]; rfl
  | .conditional s sense condition thenBranch elseBranch => by
      simp only [Stmt.map, condition.map_map, thenBranch.map_map, mapBlock_map elseBranch]; rfl
  | .expr s value => by simp only [Stmt.map, value.map_map]; rfl

theorem mapStmts_map : (ss : List (Stmt σ)) →
    mapStmts g (mapStmts f ss) = mapStmts (g ∘ f) ss
  | [] => rfl
  | s :: ss => by rw [mapStmts, mapStmts, s.map_map, mapStmts_map ss, mapStmts]

end

/-- A move changes no shape. -/
theorem Program.shape_map (p : Program σ) : (p.map f).shape = p.shape := by
  rw [shape, Program.map, Program.map, Program.body, Block.map_map]
  rfl

/-- The class of an error does not depend on its place. -/
theorem ParseError.category_map (e : ParseError σ) : (e.map f).category = e.category := by
  cases e <;> rfl

/-- The message of an error does not depend on its place. -/
theorem ParseError.message_map (e : ParseError σ) : (e.map f).message = e.message := by
  cases e <;> rfl

/-- An error is put where `f` puts its span. -/
theorem ParseError.span_map (e : ParseError σ) : (e.map f).span = f e.span := by
  cases e <;> rfl

end

end CallGrammar
