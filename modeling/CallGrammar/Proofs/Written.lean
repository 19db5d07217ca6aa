import CallGrammar.Proofs.Nodes
import CallGrammar.Proofs.Pieces

/-!
# CallGrammar.Proofs.Written

How a tree is written: with its lists in brackets, and with parentheses around each
operand, receiver and target, so that no level of any operator matters.  A tree is
writable if each of its names, variables and numbers is lone, each access has a key
and each assignment a target.  The pieces of a writable tree may stand one after the
other, so its text is read as its words.
-/

namespace CallGrammar

variable {σ : Type}

/-! ## pieces of phrases -/

/-- The token of a literal; strings are written in single quotes. -/
def Literal.kind : Literal → Kind
  | integer s => .integer s
  | float s => .float s
  | string s => .singleQuoted s
  | boolean true => .keyword .trueWord
  | boolean false => .keyword .falseWord
  | undef => .keyword .undefWord

/-- The word that opens a conditional. -/
def Sense.keyword : Sense → Keyword
  | ifTrue => .ifWord
  | unlessTrue => .unlessWord

namespace Piece

@[match_pattern] def symbol (s : Symbol) : Piece := word (.symbol s)

/-- `(…)` -/
def group (ps : List Piece) : List Piece := symbol .openParen :: (ps ++ [symbol .closeParen])

/-- `name(…)`, and a lambda. -/
def called (name : String) (args lambda : List Piece) : List Piece :=
  word (.name name) :: symbol .openParen :: (args ++ symbol .closeParen :: lambda)

/-- `, $p` for each of the parameters. -/
def moreParameters : List (Ident σ) → List Piece
  | [] => []
  | p :: ps => symbol .comma :: space :: word (.var p.name) :: moreParameters ps

/-- `|$p, …|`, or `||` without parameters. -/
def parameters : List (Ident σ) → List Piece
  | [] => [symbol .pipePipe]
  | p :: ps => symbol .pipe :: word (.var p.name) :: (moreParameters ps ++ [symbol .pipe])

end Piece

/-! ## pieces of trees -/

open Piece in
mutual

def Expr.pieces : Expr σ → List Piece
  | .call _ callee args lambda => called callee.name (exprsPieces args) (lambdaPieces lambda)
  | .method _ receiver callee args lambda =>
    group receiver.pieces ++
      symbol .dot :: called callee.name (exprsPieces args) (lambdaPieces lambda)
  | .word _ name => [word (.name name)]
  | .reference _ name => [word (.reference name)]
  | .var _ name => [word (.var name)]
  | .literal _ value => [word value.kind]
  | .array _ items => symbol .openBracket :: (exprsPieces items ++ [symbol .closeBracket])
  | .hash _ entries => symbol .openBrace :: (entriesPieces entries ++ [symbol .closeBrace])
  | .access _ target keys =>
    group target.pieces ++
      symbol .openBracket :: (exprsPieces keys ++ [symbol .closeBracket])
  | .binary _ op left right =>
    group left.pieces ++ space :: word op.kind :: space :: group right.pieces
  | .unary _ op operand => word op.kind :: group operand.pieces

def exprsPieces : List (Expr σ) → List Piece
  | [] => []
  | [e] => e.pieces
  | e :: es => e.pieces ++ symbol .comma :: space :: exprsPieces es

def Entry.pieces : Entry σ → List Piece
  | ⟨key, value⟩ => key.pieces ++ space :: symbol .arrow :: space :: value.pieces

def entriesPieces : List (Entry σ) → List Piece
  | [] => []
  | [e] => e.pieces
  | e :: es => e.pieces ++ symbol .comma :: space :: entriesPieces es

def Lambda.pieces : Lambda σ → List Piece
  | ⟨_, params, body⟩ => parameters params ++ space :: body.pieces

def lambdaPieces : Option (Lambda σ) → List Piece
  | none => []
  | some lambda => space :: lambda.pieces

def Block.pieces : Block σ → List Piece
  | ⟨_, []⟩ => [symbol .openBrace, space, symbol .closeBrace]
  | ⟨_, stmts⟩ => symbol .openBrace :: space :: (stmtsPieces stmts ++ [space, symbol .closeBrace])

def elsePieces : Option (Block σ) → List Piece
  | none => []
  | some block => space :: word (.keyword .elseWord) :: space :: block.pieces

def Stmt.pieces : Stmt σ → List Piece
  | .invoke _ callee args lambda => called callee.name (exprsPieces args) (lambdaPieces lambda)
  | .assign _ target value => target.pieces ++ space :: symbol .assign :: space :: value.pieces
  | .conditional _ sense condition thenBranch elseBranch =>
    word (.keyword sense.keyword) :: space ::
      (group condition.pieces ++ space :: (thenBranch.pieces ++ elsePieces elseBranch))
  | .expr _ value => group value.pieces

def stmtsPieces : List (Stmt σ) → List Piece
  | [] => []
  | [s] => s.pieces
  | s :: ss => s.pieces ++ symbol .semicolon :: stmtsPieces ss

end

/-- The text of a source unit. -/
def Program.text (p : Program σ) : String := Piece.text (stmtsPieces p.body.stmts)

example : Program.text (⟨⟨(), [
      .invoke () ⟨"f", ()⟩ [.var () "x", .literal () (.string "it's")] none,
      .expr () (.binary () .and (.word () "a") (.word () "b"))]⟩⟩ : Program Unit)
    = "f($x, 'it\\'s');((a) and (b))" := by decide

/-! ## writable trees -/

mutual

def Expr.Writable : Expr σ → Prop
  | .call _ callee args lambda =>
    (Kind.name callee.name).Lone ∧ exprsWritable args ∧ lambdaWritable lambda
  | .method _ receiver callee args lambda =>
    receiver.Writable ∧ (Kind.name callee.name).Lone ∧ exprsWritable args ∧ lambdaWritable lambda
  | .word _ name => (Kind.name name).Lone
  | .reference _ name => (Kind.reference name).Lone
  | .var _ name => (Kind.var name).Lone
  | .literal _ value => value.kind.Lone
  | .array _ items => exprsWritable items
  | .hash _ entries => entriesWritable entries
  | .access _ target keys => target.Writable ∧ keys ≠ [] ∧ exprsWritable keys
  | .binary _ _ left right => left.Writable ∧ right.Writable
  | .unary _ _ operand => operand.Writable

def exprsWritable : List (Expr σ) → Prop
  | [] => True
  | e :: es => e.Writable ∧ exprsWritable es

def Entry.Writable : Entry σ → Prop
  | ⟨key, value⟩ => key.Writable ∧ value.Writable

def entriesWritable : List (Entry σ) → Prop
  | [] => True
  | e :: es => e.Writable ∧ entriesWritable es

def Lambda.Writable : Lambda σ → Prop
  | ⟨_, params, body⟩ => (∀ p ∈ params, (Kind.var p.name).Lone) ∧ body.Writable

def lambdaWritable : Option (Lambda σ) → Prop
  | none => True
  | some lambda => lambda.Writable

def Block.Writable : Block σ → Prop
  | ⟨_, stmts⟩ => stmtsWritable stmts

def elseWritable : Option (Block σ) → Prop
  | none => True
  | some block => block.Writable

def Stmt.Writable : Stmt σ → Prop
  | .invoke _ callee args lambda =>
    (Kind.name callee.name).Lone ∧ exprsWritable args ∧ lambdaWritable lambda
  | .assign _ target value =>
    target.isAssignable = true ∧ target.Writable ∧ value.Writable
  | .conditional _ _ condition thenBranch elseBranch =>
    condition.Writable ∧ thenBranch.Writable ∧ elseWritable elseBranch
  | .expr _ value => value.Writable

def stmtsWritable : List (Stmt σ) → Prop
  | [] => True
  | s :: ss => s.Writable ∧ stmtsWritable ss

end

/-- Names, references, variables, lambda parameters and numbers are lone, accesses have
keys, and only variables and accesses are assigned. -/
def Program.Writable (p : Program σ) : Prop := p.body.Writable

/-! ## pieces one after the other -/

namespace Piece

variable {ps qs args lambda : List Piece} {next : Option Piece} {k : Kind} {s : Symbol}

/-- A value may end before the piece. -/
def endsValue : Option Piece → Bool
  | none | some space => true
  | some (word (.symbol s)) => s.endsWord
  | some (word _) => false

/-- The pieces are read as they are before whatever a value may end before. -/
def Fits (ps : List Piece) : Prop := ∀ next, endsValue next = true → Spaced ps next

/-- The pieces fit, and begin with a word. -/
structure Stands (ps : List Piece) : Prop where
  opens : ∃ k qs, ps = word k :: qs
  fits : Fits ps

@[simp] theorem spaced_nil (next : Option Piece) : Spaced [] next := trivial

/-- Pieces are told apart in two runs if they are in each, the first with the second behind it.
-/
theorem spaced_append :
    Spaced (ps ++ qs) next ↔ Spaced ps (qs.head?.or next) ∧ Spaced qs next := by
  induction ps with
  | nil => simp
  | cons p ps ih =>
    rw [List.cons_append, Spaced, Spaced, ih, List.head?_append, Option.or_assoc]
    simp only [and_assoc]

/-- Behind a symbol that nothing goes on, any piece may stand. -/
theorem mayPrecede_of_not_goesOn (h : s.goesOn = false) (p : Piece) :
    (symbol s).mayPrecede p = true := by
  cases p with
  | space => rfl
  | word k =>
    show (Kind.symbol s).mayPrecede k = true
    unfold Kind.mayPrecede
    split <;> simp_all

/-- A word may stand before what ends a value. -/
theorem mayPrecede_of_endsValue (hk : ∀ s, k ≠ .symbol s) {p : Piece}
    (h : endsValue (some p) = true) : (word k).mayPrecede p = true := by
  cases p with
  | space => rfl
  | word k' =>
    cases k' with
    | symbol s =>
      show k.mayPrecede (.symbol s) = true
      unfold Kind.mayPrecede
      split <;> simp_all [endsValue]
    | _ => cases h

/-- A symbol that no other begins with may precede anything. -/
@[simp] theorem spaced_symbol (h : s.goesOn = false) :
    Spaced (symbol s :: ps) next ↔ Spaced ps next := by
  constructor
  · exact fun hs => hs.2.2
  · exact fun hs => ⟨trivial, fun p _ => mayPrecede_of_not_goesOn h p, hs⟩

@[simp] theorem spaced_word_space :
    Spaced (word k :: space :: ps) next ↔ k.Lone ∧ Spaced (space :: ps) next := by
  constructor
  · exact fun hs => ⟨hs.1, hs.2.2⟩
  · rintro ⟨hk, hs⟩
    refine ⟨hk, fun p hp => ?_, hs⟩
    cases hp
    rfl

@[simp] theorem spaced_space_word :
    Spaced (space :: word k :: ps) next ↔ Spaced (word k :: ps) next := by
  constructor
  · exact fun hs => hs.2.2
  · intro hs
    refine ⟨trivial, fun p hp => ?_, hs⟩
    cases hp
    rfl

/-- A space before pieces that stand on their own. -/
theorem Stands.space (h : Stands ps) (hs : Spaced ps next) : Spaced (space :: ps) next := by
  obtain ⟨k, rest, rfl⟩ := h.opens
  exact spaced_space_word.2 hs

theorem Fits.nil : Fits [] := fun _ _ => trivial

/-- A closer makes an end that any piece may follow. -/
theorem Fits.closed (h : Fits ps) (hs : s.goesOn = false) (hends : s.endsWord = true) :
    Fits (ps ++ [symbol s]) := by
  intro next _
  have hps : Spaced ps (some (symbol s)) := h _ hends
  exact spaced_append.2 ⟨hps, (spaced_symbol hs).2 trivial⟩

theorem Stands.after_space (h : Stands ps) : Fits (.space :: ps) :=
  fun next hnext => h.space (h.fits next hnext)

/-- A word that is no symbol. -/
theorem Stands.word (hk : k.Lone) (hsymbol : ∀ s, k ≠ .symbol s) : Stands [word k] where
  opens := ⟨k, [], rfl⟩
  fits next hnext := by
    refine ⟨hk, fun p hp => ?_, trivial⟩
    rw [List.head?_nil, Option.none_or] at hp
    rw [hp] at hnext
    exact mayPrecede_of_endsValue hsymbol hnext

/-- A closing bracket ends whatever follows. -/
theorem Fits.brackets {opener closer : Symbol} (h : Fits ps) (hopener : opener.goesOn = false)
    (hcloser : closer.goesOn = false) (hends : closer.endsWord = true) :
    Spaced (symbol opener :: (ps ++ [symbol closer])) next := by
  have hps : Spaced ps (some (symbol closer)) := h _ hends
  simp [spaced_append, hopener, hcloser, hps]

theorem Fits.group (h : Fits ps) : Spaced (group ps) next := h.brackets rfl rfl rfl

/-- Brackets around pieces stand on their own. -/
theorem Stands.brackets {opener closer : Symbol} (h : Fits ps) (hopener : opener.goesOn = false)
    (hcloser : closer.goesOn = false) (hends : closer.endsWord = true) :
    Stands (symbol opener :: (ps ++ [symbol closer])) :=
  ⟨⟨_, _, rfl⟩, fun _ _ => h.brackets hopener hcloser hends⟩

theorem Stands.group (h : Fits ps) : Stands (group ps) := .brackets h rfl rfl rfl

/-- A group before a symbol that touches it. -/
theorem Stands.after_group (h : Fits ps) (hs : s.goesOn = false) (hqs : Fits qs) :
    Stands (Piece.group ps ++ symbol s :: qs) where
  opens := ⟨_, _, rfl⟩
  fits next hnext := by
    have hspaced := hqs next hnext
    have hgroup : Spaced (Piece.group ps) (some (symbol s)) := h.group
    simp [spaced_append, hs, hspaced, hgroup]

/-- Two values with a word between them. -/
theorem Stands.between (h : Stands ps) (hk : k.Lone) (h' : Stands qs) :
    Stands (ps ++ .space :: .word k :: .space :: qs) where
  opens := by
    obtain ⟨k', rest, rfl⟩ := h.opens
    exact ⟨k', _, rfl⟩
  fits next hnext := by
    have hps : Spaced ps (some .space) := h.fits _ rfl
    have hqs : Spaced (.space :: qs) next := h'.space (h'.fits next hnext)
    simp [spaced_append, hk, hps, hqs]

/-- A value, a symbol that touches it, and what stands after it. -/
theorem Stands.before (h : Stands ps) (hends : s.endsWord = true) (hs : s.goesOn = false)
    (hqs : Fits qs) : Stands (ps ++ symbol s :: qs) where
  opens := by
    obtain ⟨k, rest, rfl⟩ := h.opens
    exact ⟨k, _, rfl⟩
  fits next hnext := by
    have hps : Spaced ps (some (symbol s)) := h.fits _ hends
    have hspaced := hqs next hnext
    simp [spaced_append, hs, hps, hspaced]

/-- A call stands on its own, with the name first. -/
theorem Stands.called {name : String} (hname : (Kind.name name).Lone) (hargs : Fits args)
    (hlambda : Fits lambda) : Stands (called name args lambda) where
  opens := ⟨_, _, rfl⟩
  fits next hnext := by
    have hspaced : Spaced args (some (symbol .closeParen)) := hargs _ rfl
    have hrest := hlambda next hnext
    refine ⟨hname, fun p hp => ?_, ?_⟩
    · cases hp
      rfl
    · rw [spaced_symbol rfl, spaced_append, spaced_symbol rfl]
      exact ⟨hspaced, hrest⟩

/-- A sign and its operand in parentheses. -/
theorem Stands.sign (h : Fits ps) (op : UnaryOp) : Stands (.word op.kind :: Piece.group ps) where
  opens := ⟨_, _, rfl⟩
  fits next _ := by
    refine ⟨?_, fun p hp => ?_, h.group⟩
    · cases op <;> trivial
    · cases hp
      cases op <;> rfl

/-- A word, a group and what stands after them, with spaces between. -/
theorem Stands.keyword (hk : k.Lone) (h : Fits ps) (h' : Stands qs) :
    Stands (.word k :: .space :: (Piece.group ps ++ .space :: qs)) where
  opens := ⟨_, _, rfl⟩
  fits next hnext := by
    have hgroup : Spaced (Piece.group ps) (some .space) := h.group
    have hrest : Spaced (Piece.group ps ++ .space :: qs) next :=
      spaced_append.2 ⟨hgroup, h'.after_space next hnext⟩
    exact spaced_word_space.2 ⟨hk, spaced_space_word.2 hrest⟩

/-- The parameters after the first one, up to the closing bar before a space. -/
theorem spaced_moreParameters {params : List (Ident σ)} {name : String}
    (hname : (Kind.var name).Lone) (hparams : ∀ p ∈ params, (Kind.var p.name).Lone)
    (h : Spaced (.space :: ps) next) :
    Spaced (.word (.var name) :: (moreParameters params ++ symbol .pipe :: .space :: ps))
      next := by
  induction params generalizing name with
  | nil =>
    refine ⟨hname, fun p hp => ?_, ?_⟩
    · cases hp
      rfl
    · exact spaced_word_space.2 ⟨trivial, h⟩
  | cons p params ih =>
    have hrest := ih (hparams p List.mem_cons_self) fun q hq =>
      hparams q (List.mem_cons_of_mem p hq)
    refine ⟨hname, fun p hp => ?_, ?_⟩
    · cases hp
      rfl
    · exact (spaced_symbol rfl).2 (spaced_space_word.2 hrest)

/-- Parameters between bars, before a body. -/
theorem Stands.parameters {params : List (Ident σ)}
    (hparams : ∀ p ∈ params, (Kind.var p.name).Lone) (h : Stands ps) :
    Stands (parameters params ++ .space :: ps) := by
  cases params with
  | nil =>
    refine ⟨⟨_, _, rfl⟩, fun next hnext => ?_⟩
    exact (spaced_symbol rfl).2 (h.space (h.fits next hnext))
  | cons p params =>
    have heq : Piece.parameters (p :: params) ++ .space :: ps = symbol .pipe ::
        .word (.var p.name) :: (moreParameters params ++ symbol .pipe :: .space :: ps) := by
      simp [Piece.parameters]
    rw [heq]
    refine ⟨⟨_, _, rfl⟩, fun next hnext => ?_⟩
    have hname := hparams p List.mem_cons_self
    have hmore := spaced_moreParameters hname (fun q hq => hparams q (List.mem_cons_of_mem p hq))
      (h.space (h.fits next hnext))
    refine ⟨trivial, fun q hq => ?_, ?_⟩
    · cases hq
      rfl
    · exact hmore

/-- Statements between braces. -/
theorem Stands.block (h : Stands ps) :
    Stands (symbol .openBrace :: .space :: (ps ++ [.space, symbol .closeBrace])) where
  opens := ⟨_, _, rfl⟩
  fits next _ := by
    have hps : Spaced ps (some .space) := h.fits _ rfl
    have hend : Spaced [.space, symbol .closeBrace] next :=
      spaced_space_word.2 ((spaced_symbol rfl).2 trivial)
    have hbody : Spaced (ps ++ [.space, symbol .closeBrace]) next := spaced_append.2 ⟨hps, hend⟩
    obtain ⟨k, rest, rfl⟩ := h.opens
    exact (spaced_symbol rfl).2 (spaced_space_word.2 hbody)

theorem Stands.noBlock : Stands [symbol .openBrace, .space, symbol .closeBrace] where
  opens := ⟨_, _, rfl⟩
  fits next _ := by
    rw [spaced_symbol rfl]
    exact spaced_space_word.2 ((spaced_symbol rfl).2 trivial)

end Piece

/-! ## writable trees may be written -/

open Piece

theorem Literal.kind_ne_symbol (value : Literal) (s : Symbol) : value.kind ≠ .symbol s := by
  cases value with
  | boolean b => cases b <;> exact nofun
  | _ => exact nofun

/-- A list fits even if it has no elements. -/
theorem Piece.Fits.exprs {es : List (Expr σ)} (h : es ≠ [] → Stands (exprsPieces es)) :
    Fits (exprsPieces es) := by
  cases es with
  | nil =>
    rw [exprsPieces]
    exact .nil
  | cons e es => exact (h (List.cons_ne_nil e es)).fits

/-- Entries fit between braces, also if there are none. -/
theorem Piece.Fits.entries {es : List (Entry σ)} (h : es ≠ [] → Stands (entriesPieces es)) :
    Fits (entriesPieces es) := by
  cases es with
  | nil =>
    rw [entriesPieces]
    exact .nil
  | cons e es => exact (h (List.cons_ne_nil e es)).fits

/-- An operator lexes alone. -/
theorem BinaryOp.lone (op : BinaryOp) : op.kind.Lone := by
  cases op <;> trivial

mutual

/-- The pieces of a writable expression stand on their own. -/
theorem Expr.stands : (e : Expr σ) → e.Writable → Stands e.pieces
  | .call _ _ args lambda, ⟨hname, hargs, hlambda⟩ => by
    have hargs := Fits.exprs (exprs_stand args hargs)
    rw [Expr.pieces]
    exact .called hname hargs (lambda_fits lambda hlambda)
  | .method _ receiver _ args lambda, ⟨hreceiver, hname, hargs, hlambda⟩ => by
    have hargs := Fits.exprs (exprs_stand args hargs)
    have hcalled := Stands.called hname hargs (lambda_fits lambda hlambda)
    rw [Expr.pieces]
    exact .after_group (receiver.stands hreceiver).fits rfl hcalled.fits
  | .word _ _, hname => by
    rw [Expr.pieces]
    exact .word hname nofun
  | .reference _ _, hname => by
    rw [Expr.pieces]
    exact .word hname nofun
  | .var _ _, hname => by
    rw [Expr.pieces]
    exact .word hname nofun
  | .literal _ value, hvalue => by
    rw [Expr.pieces]
    exact .word hvalue value.kind_ne_symbol
  | .array _ items, hitems => by
    have hitems := Fits.exprs (exprs_stand items hitems)
    rw [Expr.pieces]
    exact .brackets hitems rfl rfl rfl
  | .hash _ entries, hentries => by
    have hentries := Fits.entries (entries_stand entries hentries)
    rw [Expr.pieces]
    exact .brackets hentries rfl rfl rfl
  | .access _ target keys, ⟨htarget, _, hkeys⟩ => by
    have hkeys := Fits.exprs (exprs_stand keys hkeys)
    rw [Expr.pieces]
    exact .after_group (target.stands htarget).fits rfl (hkeys.closed rfl rfl)
  | .binary _ op left right, ⟨hleft, hright⟩ => by
    have hl := Stands.group (left.stands hleft).fits
    have hr := Stands.group (right.stands hright).fits
    rw [Expr.pieces]
    exact hl.between op.lone hr
  | .unary _ op operand, hoperand => by
    rw [Expr.pieces]
    exact .sign (operand.stands hoperand).fits op

theorem exprs_stand : (es : List (Expr σ)) → exprsWritable es → es ≠ [] →
    Stands (exprsPieces es)
  | [], _, hne => absurd rfl hne
  | [e], ⟨he, _⟩, _ => by
    rw [exprsPieces]
    exact e.stands he
  | e :: e' :: es, ⟨he, hes⟩, _ => by
    have hrest := exprs_stand (e' :: es) hes (List.cons_ne_nil e' es)
    rw [exprsPieces]
    · exact (e.stands he).before rfl rfl hrest.after_space
    · exact nofun

theorem Entry.stands : (e : Entry σ) → e.Writable → Stands e.pieces
  | ⟨key, value⟩, ⟨hkey, hvalue⟩ => by
    rw [Entry.pieces]
    exact (key.stands hkey).between trivial (value.stands hvalue)

theorem entries_stand : (es : List (Entry σ)) → entriesWritable es → es ≠ [] →
    Stands (entriesPieces es)
  | [], _, hne => absurd rfl hne
  | [e], ⟨he, _⟩, _ => by
    rw [entriesPieces]
    exact e.stands he
  | e :: e' :: es, ⟨he, hes⟩, _ => by
    have hrest := entries_stand (e' :: es) hes (List.cons_ne_nil e' es)
    rw [entriesPieces]
    · exact (e.stands he).before rfl rfl hrest.after_space
    · exact nofun

/-- The pieces of a writable lambda stand on their own. -/
theorem Lambda.stands : (l : Lambda σ) → l.Writable → Stands l.pieces
  | ⟨_, params, body⟩, ⟨hparams, hbody⟩ => by
    rw [Lambda.pieces]
    exact .parameters hparams (body.stands hbody)

theorem lambda_fits : (l : Option (Lambda σ)) → lambdaWritable l → Fits (lambdaPieces l)
  | none, _ => by
    rw [lambdaPieces]
    exact .nil
  | some l, hl => by
    rw [lambdaPieces]
    exact (l.stands hl).after_space

/-- The pieces of a writable block stand on their own. -/
theorem Block.stands : (b : Block σ) → b.Writable → Stands b.pieces
  | ⟨_, []⟩, _ => by
    rw [Block.pieces]
    exact .noBlock
  | ⟨_, s :: ss⟩, hstmts => by
    have hbody := stmts_stand (s :: ss) hstmts (List.cons_ne_nil s ss)
    rw [Block.pieces]
    · exact .block hbody
    · exact nofun

theorem else_stands {ps : List Piece} (hps : Stands ps) : (b : Option (Block σ)) →
    elseWritable b → Stands (ps ++ elsePieces b)
  | none, _ => by
    rw [elsePieces, List.append_nil]
    exact hps
  | some b, hb => by
    rw [elsePieces]
    exact hps.between trivial (b.stands hb)

/-- The pieces of a writable statement stand on their own. -/
theorem Stmt.stands : (s : Stmt σ) → s.Writable → Stands s.pieces
  | .invoke _ _ args lambda, ⟨hname, hargs, hlambda⟩ => by
    have hargs := Fits.exprs (exprs_stand args hargs)
    rw [Stmt.pieces]
    exact .called hname hargs (lambda_fits lambda hlambda)
  | .assign _ target value, ⟨_, htarget, hvalue⟩ => by
    rw [Stmt.pieces]
    exact (target.stands htarget).between trivial (value.stands hvalue)
  | .conditional _ sense condition thenBranch elseBranch, ⟨hcondition, hthen, helse⟩ => by
    have hbranches := else_stands (thenBranch.stands hthen) elseBranch helse
    rw [Stmt.pieces]
    exact .keyword trivial (condition.stands hcondition).fits hbranches
  | .expr _ value, hvalue => by
    rw [Stmt.pieces]
    exact .group (value.stands hvalue).fits

theorem stmts_stand : (ss : List (Stmt σ)) → stmtsWritable ss → ss ≠ [] →
    Stands (stmtsPieces ss)
  | [], _, hne => absurd rfl hne
  | [s], ⟨hs, _⟩, _ => by
    rw [stmtsPieces]
    exact s.stands hs
  | s :: s' :: ss, ⟨hs, hss⟩, _ => by
    have hrest := stmts_stand (s' :: ss) hss (List.cons_ne_nil s' ss)
    rw [stmtsPieces]
    · exact (s.stands hs).before rfl rfl hrest.fits
    · exact nofun

end

/-- The text of a writable source unit is read as its words. -/
theorem Program.significant_ofText_text {p : Program σ} (h : p.Writable) :
    (Token.significant (Token.ofText p.text)).map (Token.map fun _ => ())
      = tokens false (stmtsPieces p.body.stmts) := by
  obtain ⟨⟨span, stmts⟩⟩ := p
  have hstmts : stmtsWritable stmts := h
  have hfits : Fits (stmtsPieces stmts) := by
    cases stmts with
    | nil =>
      rw [stmtsPieces]
      exact .nil
    | cons s ss => exact (stmts_stand (s :: ss) hstmts (List.cons_ne_nil s ss)).fits
  exact significant_ofText (hfits none rfl)

end CallGrammar
