import CallGrammar.Proofs.Reconstruction

/-!
# CallGrammar.Proofs.Indentation

The layout of a tree takes back each indentation that it makes.  Parts are `WellIndented` if
their `indent` and `dedent` come in pairs, one around the other or one behind the other.

The same induction over a tree tells the texts in its layout: all are spelled by the words that
the tree keeps, but for some fixed ones, which have neither blanks, parentheses nor quotes.
-/

namespace CallGrammar

variable {σ : Type}

/-! ## parts -/

/-- The indentations in the parts come in pairs, and the texts in them are all `Fine`. -/
inductive Part.WellIndented (Fine : String → Prop) : List Part → Prop where
  | nil : WellIndented Fine []
  | text {s : String} (hs : Fine s) : WellIndented Fine [.text s]
  | list {inner : List Part} (h : WellIndented Fine inner) : WellIndented Fine [.list inner]
  | lineBreak : WellIndented Fine [.lineBreak]
  | indented {inner : List Part} (h : WellIndented Fine inner) :
      WellIndented Fine (.indent :: (inner ++ [.dedent]))
  | append {parts parts' : List Part} (h : WellIndented Fine parts)
      (h' : WellIndented Fine parts') : WellIndented Fine (parts ++ parts')

namespace Part.WellIndented

variable {Fine : String → Prop} {part : Part} {parts parts' inner : List Part} {s : String}

/-- A part before others. -/
theorem cons (hpart : WellIndented Fine [part]) (h : WellIndented Fine parts) :
    WellIndented Fine (part :: parts) :=
  hpart.append h

/-- A form that begins with a word. -/
theorem form (hs : Fine s) (h : WellIndented Fine inner) :
    WellIndented Fine [.list (.text s :: inner)] :=
  .list (.cons (.text hs) h)

theorem empty : WellIndented Fine [.list []] := .list .nil

/-- A branch is its word and then its parts. -/
theorem branchPart (hs : Fine s) (h : WellIndented Fine [part]) :
    WellIndented Fine [branchPart s part] :=
  .form hs (.indented h)

/-- Parts that are well indented each are so together. -/
theorem of_forall (h : ∀ part ∈ parts, WellIndented Fine [part]) : WellIndented Fine parts := by
  induction parts with
  | nil => exact .nil
  | cons part parts ih =>
    obtain ⟨hpart, h⟩ := List.forall_mem_cons.1 h
    exact .cons hpart (ih h)

/-- Each part on a line of its own. -/
theorem lines (h : ∀ part ∈ parts, WellIndented Fine [part]) :
    WellIndented Fine (parts.flatMap fun part => [.lineBreak, part]) := by
  refine .of_forall fun line hline => ?_
  obtain ⟨part, hpart, hline⟩ := List.mem_flatMap.1 hline
  obtain rfl | rfl := List.mem_pair.1 hline
  · exact .lineBreak
  · exact h line hpart

/-- A block, with each of its parts on a line. -/
theorem blockPart (hblock : Fine "block") (h : ∀ part ∈ parts, WellIndented Fine [part]) :
    WellIndented Fine [blockPart parts] := by
  have hparts := (indented (lines h)).append .lineBreak
  rw [List.cons_append, List.append_assoc] at hparts
  exact .form hblock hparts

/-- Statements on one line are a list. -/
theorem compactPart (hblock : Fine "block") (h : ∀ part ∈ parts, WellIndented Fine [part]) :
    WellIndented Fine [compactPart parts] := by
  match parts, h with
  | [], _ => exact .empty
  | [part], h => exact h part List.mem_cons_self
  | part :: part' :: parts, h => exact .blockPart hblock h

end Part.WellIndented

/-! ## texts of words -/

/-- The text that stands for a literal. -/
def Literal.text : Literal → String
  | integer s | float s => s
  | string s => "'" ++ s ++ "'"
  | boolean true => "true"
  | boolean false => "false"
  | undef => "undef"

/-- A literal is written as its text. -/
theorem Literal.toPart_eq (value : Literal) : value.toPart = .text value.text := by
  cases value with
  | boolean b => cases b <;> rfl
  | _ => rfl

/-- The texts that may stand for the word.  A variable has a dollar sign, a parameter has none;
the sign of an operator is a fixed text. -/
def Word.texts : Word → List String
  | name s | reference s => [s]
  | var s => [s, "$" ++ s]
  | literal value => [value.text]
  | operator _ => []

/-- All texts that may stand for a word of the nodes are `Fine`. -/
def Writes (Fine : String → Prop) (nodes : List (Node σ)) : Prop :=
  ∀ word ∈ wordsOf nodes, ∀ s ∈ word.texts, Fine s

section

variable {Fine : String → Prop} {n m : List (Node σ)}

/-- What two lists of nodes write. -/
@[simp] theorem writes_append : Writes Fine (n ++ m) ↔ Writes Fine n ∧ Writes Fine m := by
  simp only [Writes, wordsOf_append, List.forall_mem_append]

@[simp] theorem writes_stmt (s : Stmt σ) : Writes Fine (.stmt s :: n) ↔ Writes Fine n := Iff.rfl

/-- A name is fine to write, and so is what comes behind it. -/
@[simp] theorem writes_name (s : String) (role : Role σ) :
    Writes Fine (.name s role :: n) ↔ Fine s ∧ Writes Fine n := by
  simp only [Writes, wordsOf_name, List.forall_mem_cons, Word.texts, List.mem_singleton,
    forall_eq]

/-- All texts of a word are fine to write, and so is what comes behind it. -/
@[simp] theorem writes_leaf (word : Word) :
    Writes Fine (.leaf word :: n) ↔ (∀ s ∈ word.texts, Fine s) ∧ Writes Fine n := by
  simp only [Writes, wordsOf_leaf, List.forall_mem_cons]

/-- The text of a word that is written is fine. -/
theorem Writes.leaf {word : Word} {s : String} (h : Writes Fine (.leaf word :: n))
    (hs : s ∈ word.texts) : Fine s :=
  ((writes_leaf word).1 h).1 s hs

theorem Writes.params {params : List (Ident σ)} (h : Writes Fine (params.map Ident.var)) :
    ∀ p ∈ params, Fine p.name := by
  intro p hp
  rw [Writes, wordsOf_params] at h
  exact h (.var p.name) (List.mem_map_of_mem hp) p.name List.mem_cons_self

end

/-! ## trees -/

section

open CallGrammar.Part (WellIndented)

/-- Every word of the notation itself is a text that may be written. -/
def AdmitsWords (Fine : String → Prop) : Prop := ∀ s : String, IsWord s.toList → Fine s

variable {Fine : String → Prop}

/-- Parameters are well indented if their names are fine to write. -/
theorem Ident.parametersPart_wellIndented (hfixed : AdmitsWords Fine) {params : List (Ident σ)}
    (h : Writes Fine (params.map Ident.var)) :
    WellIndented Fine (Ident.parametersPart params) := by
  have hnames : WellIndented Fine (params.map fun p => .text p.name) := by
    refine .of_forall fun part hpart => ?_
    obtain ⟨p, hp, rfl⟩ := List.mem_map.1 hpart
    exact .text (h.params p hp)
  unfold Ident.parametersPart
  split
  · exact .nil
  · exact .form (hfixed _ (by decide)) hnames

mutual

/-- The layout of a tree is well indented. -/
theorem Expr.toPart_wellIndented (hfixed : AdmitsWords Fine) :
    (e : Expr σ) → Writes Fine e.nodes → WellIndented Fine [e.toPart]
  | .call _ callee args lambda, h => by
    rw [Expr.nodes, writes_name, writes_append] at h
    obtain ⟨hcallee, hargs, hlambda⟩ := h
    exact .form (hfixed _ (by decide)) (.cons (.text hcallee)
      (.append (exprs_wellIndented hfixed args hargs) (lambda_wellIndented hfixed lambda hlambda)))
  | .method _ receiver callee args lambda, h => by
    rw [Expr.nodes, writes_append, writes_name, writes_append] at h
    obtain ⟨hreceiver, hcallee, hargs, hlambda⟩ := h
    have hselector := (receiver.toPart_wellIndented hfixed hreceiver).cons (.text hcallee)
    exact .form (hfixed _ (by decide)) (.cons (.form (hfixed _ (by decide)) hselector)
      (.append (exprs_wellIndented hfixed args hargs) (lambda_wellIndented hfixed lambda hlambda)))
  | .word _ name, h => by
    rw [Expr.nodes, writes_name] at h
    exact .text h.1
  | .reference _ name, h => .text (h.leaf List.mem_cons_self)
  | .var _ name, h => .text (h.leaf (List.mem_cons_of_mem _ List.mem_cons_self))
  | .literal _ value, h => by
    rw [Expr.toPart, value.toPart_eq]
    exact .text (h.leaf List.mem_cons_self)
  | .array _ items, h => .form (hfixed _ (by decide)) (exprs_wellIndented hfixed items h)
  | .hash _ entries, h => .form (hfixed _ (by decide)) (entries_wellIndented hfixed entries h)
  | .access _ target keys, h => by
    rw [Expr.nodes, writes_append] at h
    exact .form (hfixed _ (by decide))
      (.cons (target.toPart_wellIndented hfixed h.1) (exprs_wellIndented hfixed keys h.2))
  | .binary _ op left right, h => by
    rw [Expr.nodes, writes_append, writes_leaf] at h
    exact .form (hfixed _ op.isWord_sign)
      (.cons (left.toPart_wellIndented hfixed h.1) (right.toPart_wellIndented hfixed h.2.2))
  | .unary _ op operand, h => by
    rw [Expr.nodes, writes_leaf] at h
    exact .form (hfixed _ op.isWord_sign) (operand.toPart_wellIndented hfixed h.2)

/-- Expressions are well indented if their words are fine to write. -/
theorem exprs_wellIndented (hfixed : AdmitsWords Fine) :
    (es : List (Expr σ)) → Writes Fine (exprsNodes es) → WellIndented Fine (partsOfExprs es)
  | [], _ => .nil
  | e :: es, h => by
    rw [exprsNodes, writes_append] at h
    exact .cons (e.toPart_wellIndented hfixed h.1) (exprs_wellIndented hfixed es h.2)

theorem Entry.toPart_wellIndented (hfixed : AdmitsWords Fine) :
    (e : Entry σ) → Writes Fine e.nodes → WellIndented Fine [e.toPart]
  | ⟨key, value⟩, h => by
    rw [Entry.nodes, writes_append] at h
    exact .form (hfixed _ (by decide))
      (.cons (key.toPart_wellIndented hfixed h.1) (value.toPart_wellIndented hfixed h.2))

theorem entries_wellIndented (hfixed : AdmitsWords Fine) :
    (es : List (Entry σ)) → Writes Fine (entriesNodes es) → WellIndented Fine (partsOfEntries es)
  | [], _ => .nil
  | e :: es, h => by
    rw [entriesNodes, writes_append] at h
    exact .cons (e.toPart_wellIndented hfixed h.1) (entries_wellIndented hfixed es h.2)

theorem lambda_wellIndented (hfixed : AdmitsWords Fine) :
    (lambda : Option (Lambda σ)) → Writes Fine (lambdaNodes lambda) →
    WellIndented Fine (partsOfLambda lambda)
  | none, _ => .nil
  | some lambda, h => lambda.toPart_wellIndented hfixed h

/-- A lambda is well indented if its words are fine to write. -/
theorem Lambda.toPart_wellIndented (hfixed : AdmitsWords Fine) :
    (l : Lambda σ) → Writes Fine l.nodes → WellIndented Fine [l.toPart]
  | ⟨_, params, ⟨_, stmts⟩⟩, h => by
    rw [Lambda.nodes, Block.nodes, writes_append] at h
    obtain ⟨hparams, hstmts⟩ := h
    have hbody : WellIndented Fine
        [if stmts.isEmpty then .list [] else blockPart (partsOfStmts stmts)] := by
      split
      · exact .empty
      · exact .blockPart (hfixed _ (by decide)) (stmts_wellIndented hfixed stmts hstmts)
    exact .form (hfixed _ (by decide))
      (.append (Ident.parametersPart_wellIndented hfixed hparams) hbody)

/-- What is shown of a statement is well indented. -/
theorem Stmt.toPart_wellIndented (hfixed : AdmitsWords Fine) :
    (s : Stmt σ) → Writes Fine s.inside → WellIndented Fine [s.toPart]
  | .invoke _ callee args lambda, h => by
    rw [Stmt.inside, writes_name, writes_append] at h
    obtain ⟨hcallee, hargs, hlambda⟩ := h
    exact .form (hfixed _ (by decide)) (.cons (.text hcallee)
      (.append (exprs_wellIndented hfixed args hargs) (lambda_wellIndented hfixed lambda hlambda)))
  | .assign _ target value, h => by
    rw [Stmt.inside, writes_append] at h
    exact .form (hfixed _ (by decide))
      (.cons (target.toPart_wellIndented hfixed h.1) (value.toPart_wellIndented hfixed h.2))
  | .conditional _ sense condition ⟨_, stmts⟩ elseBranch, h => by
    rw [Stmt.inside, Block.nodes, writes_append, writes_append] at h
    obtain ⟨hcondition, hthen, helse⟩ := h
    have hcompact :=
      WellIndented.compactPart (hfixed _ (by decide)) (stmts_wellIndented hfixed stmts hthen)
    have hbranches := WellIndented.cons .lineBreak
      ((WellIndented.branchPart (s := "then") (hfixed _ (by decide)) hcompact).append
        (else_wellIndented hfixed elseBranch helse))
    exact .form (hfixed _ sense.isWord_word)
      (.cons (condition.toPart_wellIndented hfixed hcondition) (.indented hbranches))
  | .expr _ value, h => value.toPart_wellIndented hfixed h

theorem else_wellIndented (hfixed : AdmitsWords Fine) :
    (branch : Option (Block σ)) → Writes Fine (blockNodes branch) →
    WellIndented Fine (partsOfElse branch)
  | none, _ => .nil
  | some ⟨_, stmts⟩, h => by
    have hcompact :=
      WellIndented.compactPart (hfixed _ (by decide)) (stmts_wellIndented hfixed stmts h)
    exact .cons .lineBreak (.branchPart (hfixed _ (by decide)) hcompact)

/-- Statements are well indented, each by itself, if their words are fine to write. -/
theorem stmts_wellIndented (hfixed : AdmitsWords Fine) :
    (ss : List (Stmt σ)) → Writes Fine (stmtsNodes ss) →
    ∀ part ∈ partsOfStmts ss, WellIndented Fine [part]
  | [], _ => nofun
  | s :: ss, h => by
    rw [stmtsNodes, writes_stmt, writes_append] at h
    exact List.forall_mem_cons.2
      ⟨s.toPart_wellIndented hfixed h.1, stmts_wellIndented hfixed ss h.2⟩

end

/-- What is shown of a block is well indented. -/
theorem Block.toPart_wellIndented (hfixed : AdmitsWords Fine) :
    (b : Block σ) → Writes Fine b.nodes → WellIndented Fine [b.toPart]
  | ⟨_, stmts⟩, h => .blockPart (hfixed _ (by decide)) (stmts_wellIndented hfixed stmts h)

/-- What is shown of a source unit is well indented. -/
theorem Program.toPart_wellIndented (hfixed : AdmitsWords Fine) :
    (p : Program σ) → Writes Fine p.nodes → WellIndented Fine [p.toPart]
  | ⟨_, stmts⟩, h => .compactPart (hfixed _ (by decide)) (stmts_wellIndented hfixed stmts h)

end

end CallGrammar
