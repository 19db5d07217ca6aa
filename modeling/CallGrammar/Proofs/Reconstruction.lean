import CallGrammar.Ast.Dump
import CallGrammar.Proofs.Atoms
import CallGrammar.Proofs.Words

/-!
# CallGrammar.Proofs.Reconstruction

A tree is read back from its dump, up to places.  `Form.reading?` reads a form from the inside
out: its first word says what it is, and what is read of the rest are its parts.

Two things in a dump do not say what they are.  A string is put down without escapes, so its
quotes may seem to close it; and a bare word with the text of a literal is put down like the
literal.  A tree without them is `Told`.
-/

namespace CallGrammar

variable {σ : Type}

/-! ## readings -/

/-- What a form of a dump is read as. -/
inductive Reading where
  | text (s : String)
  | expr (e : Expr Unit)
  | stmt (s : Stmt Unit)
  | entry (e : Entry Unit)
  | lambda (l : Lambda Unit)
  | parameters (params : List (Ident Unit))
  /-- A receiver and the name of a method of it. -/
  | selector (receiver : Expr Unit) (name : String)
  | block (stmts : List (Stmt Unit))
  /-- The statements of a branch of a conditional. -/
  | branch (stmts : List (Stmt Unit))

/-- What the first word of a form says that the form is. -/
inductive Head where
  | call | method | selector | array | hash | entry | access | lambda | parameters | block
  | invoke | assign | conditional (sense : Sense) | branch | sign

def Head.ofText : String → Head
  | "call" => call
  | "call-method" => method
  | "." => selector
  | "[]" => array
  | "\x7b\x7d" => hash
  | "=>" => entry
  | "slice" => access
  | "lambda" => lambda
  | "parameters" => parameters
  | "block" => block
  | "invoke" => invoke
  | "=" => assign
  | "if" => conditional .ifTrue
  | "unless" => conditional .unlessTrue
  | "then" | "else" => branch
  | _ => sign

/-- The operator with this sign between two operands. -/
def BinaryOp.ofSign? (s : String) : Option BinaryOp :=
  [add, sub, mul, div, mod, equal, notEqual, less, greater, lessEqual, greaterEqual, and, or,
    elem].find? (·.sign = s)

/-- The operator with this sign before one operand. -/
def UnaryOp.ofSign? (s : String) : Option UnaryOp := [neg, not].find? (·.sign = s)

namespace Reading

def expr? : Reading → Option (Expr Unit)
  | text s => atomValue? s.toList
  | expr e => some e
  | _ => none

def stmt? : Reading → Option (Stmt Unit)
  | stmt s => some s
  | r => r.expr?.map (.expr ())

def pair? : Reading → Option (Entry Unit)
  | entry e => some e
  | _ => none

def ident? : Reading → Option (Ident Unit)
  | text s => some ⟨s, ()⟩
  | _ => none

/-- Statements, in a block of their own or one alone. -/
def stmts? : Reading → Option (List (Stmt Unit))
  | block stmts => some stmts
  | r => r.stmt?.map ([·])

/-- Arguments, with a lambda behind them or without. -/
def arguments? : List Reading → Option (List (Expr Unit) × Option (Lambda Unit))
  | [] => some ([], none)
  | [lambda l] => some ([], some l)
  | r :: rs => do
    let e ← r.expr?
    let (es, l) ← arguments? rs
    return (e :: es, l)

/-- The reading of a form with the first word `s`, from those of its parts. -/
def build (s : String) : Head → List Reading → Option Reading
  | .call, text name :: rest => do
    let (args, l) ← arguments? rest
    return expr (.call () ⟨name, ()⟩ args l)
  | .method, selector receiver name :: rest => do
    let (args, l) ← arguments? rest
    return expr (.method () receiver ⟨name, ()⟩ args l)
  | .selector, [receiver, text name] => do return selector (← receiver.expr?) name
  | .array, items => do return expr (.array () (← items.mapM expr?))
  | .hash, entries => do return expr (.hash () (← entries.mapM pair?))
  | .entry, [key, value] => do return entry ⟨← key.expr?, ← value.expr?⟩
  | .access, target :: keys => do
    return expr (.access () (← target.expr?) (← keys.mapM expr?))
  | .lambda, [body] => do return lambda ⟨(), [], ⟨(), ← body.stmts?⟩⟩
  | .lambda, [parameters params, body] => do return lambda ⟨(), params, ⟨(), ← body.stmts?⟩⟩
  | .parameters, params => do return parameters (← params.mapM ident?)
  | .block, stmts => do return block (← stmts.mapM stmt?)
  | .invoke, text name :: rest => do
    let (args, l) ← arguments? rest
    return stmt (.invoke () ⟨name, ()⟩ args l)
  | .assign, [target, value] => do return stmt (.assign () (← target.expr?) (← value.expr?))
  | .conditional sense, [condition, branch stmts] => do
    return stmt (.conditional () sense (← condition.expr?) ⟨(), stmts⟩ none)
  | .conditional sense, [condition, branch stmts, branch others] => do
    return stmt (.conditional () sense (← condition.expr?) ⟨(), stmts⟩ (some ⟨(), others⟩))
  | .branch, [body] => do return branch (← body.stmts?)
  | .sign, [operand] => do return expr (.unary () (← UnaryOp.ofSign? s) (← operand.expr?))
  | .sign, [left, right] => do
    return expr (.binary () (← BinaryOp.ofSign? s) (← left.expr?) (← right.expr?))
  | _, _ => none

/-- The reading of a list, from those of its parts. -/
def ofList? : List Reading → Option Reading
  | [] => some (block [])
  | text s :: rs => build s (.ofText s) rs
  | _ => none

end Reading

mutual

def Form.reading? : Form → Option Reading
  | .atom text => some (.text text)
  | .list forms => (Form.readings? forms).bind Reading.ofList?

def Form.readings? : List Form → Option (List Reading)
  | [] => some []
  | form :: forms => do return (← form.reading?) :: (← Form.readings? forms)

end

/-- The readings of forms one after the other. -/
theorem Form.readings?_append {forms forms' : List Form} {rs rs' : List Reading}
    (h : readings? forms = some rs) (h' : readings? forms' = some rs') :
    readings? (forms ++ forms') = some (rs ++ rs') := by
  induction forms generalizing rs with
  | nil =>
    cases h
    exact h'
  | cons form forms ih =>
    rw [readings?] at h
    obtain ⟨r, hr, h⟩ := Option.bind_eq_some_iff.1 h
    obtain ⟨rest, hrest, h⟩ := Option.bind_eq_some_iff.1 h
    cases h
    rw [List.cons_append, readings?, hr, ih hrest]
    rfl

/-! ## parts that are read back -/

/-- The texts in the parts are atoms, and the parts are read back as the readings. -/
structure ReadsBack (parts : List Part) (rs : List Reading) : Prop where
  atoms : ∀ text, .atom text ∈ Form.lexemesOfAll (Part.formsOfAll parts) → IsAtom text.toList
  readings : Form.readings? (Part.formsOfAll parts) = some rs

namespace ReadsBack

variable {parts inner : List Part} {rs rs' : List Reading} {r : Reading} {s : String}

theorem nil : ReadsBack [] [] := ⟨nofun, rfl⟩

/-- Parts that are read back, one after the other. -/
theorem append {parts' : List Part} (h : ReadsBack parts rs) (h' : ReadsBack parts' rs') :
    ReadsBack (parts ++ parts') (rs ++ rs') := by
  constructor
  · intro text htext
    rw [Part.formsOfAll_append, Form.lexemesOfAll_append] at htext
    exact (List.mem_append.1 htext).elim (h.atoms text) (h'.atoms text)
  · rw [Part.formsOfAll_append]
    exact Form.readings?_append h.readings h'.readings

theorem cons {part : Part} (hpart : ReadsBack [part] [r]) (h : ReadsBack parts rs) :
    ReadsBack (part :: parts) (r :: rs) :=
  hpart.append h

theorem text (hs : IsAtom s.toList) (h : ReadsBack parts rs) :
    ReadsBack (.text s :: parts) (.text s :: rs) := by
  refine cons ⟨fun text htext => ?_, rfl⟩ h
  cases htext with
  | head => exact hs
  | tail _ htext => cases htext

/-- A list is read back by what is in it. -/
theorem list (hinner : ReadsBack inner rs) (hr : Reading.ofList? rs = some r) :
    ReadsBack [.list inner] [r] := by
  constructor
  · intro text htext
    refine hinner.atoms text ?_
    simpa [Part.formsOfAll, Part.forms, Form.lexemesOfAll, Form.lexemes] using htext
  · simp [Part.formsOfAll, Part.forms, Form.readings?, Form.reading?, hinner.readings, hr]

/-- Line breaks and indentation are not read. -/
theorem of_forms (h : ReadsBack parts rs) {parts' : List Part}
    (hforms : Part.formsOfAll parts' = Part.formsOfAll parts) : ReadsBack parts' rs := by
  constructor
  · rw [hforms]
    exact h.atoms
  · rw [hforms]
    exact h.readings

end ReadsBack

/-- The part is read back, and `read` makes `v` of its reading. -/
def Part.Tells {α : Type} (read : Reading → Option α) (part : Part) (v : α) : Prop :=
  ∃ r, ReadsBack [part] [r] ∧ read r = some v

/-- The parts are read back as arguments and a lambda. -/
def Part.TellArguments (parts : List Part) (args : List (Expr Unit))
    (lambda : Option (Lambda Unit)) : Prop :=
  ∃ rs, ReadsBack parts rs ∧ Reading.arguments? rs = some (args, lambda)

namespace Part

section

variable {α : Type} {read : Reading → Option α} {v : α} {vs : List α} {s : String}
  {part : Part} {parts inner : List Part} {rs : List Reading}

theorem Tells.atom (hs : IsAtom s.toList) (hread : read (.text s) = some v) :
    Tells read (.text s) v :=
  ⟨.text s, .text hs .nil, hread⟩

/-- A form that begins with a word. -/
theorem Tells.form (hs : IsWord s.toList) (hinner : ReadsBack inner rs)
    (hread : (Reading.build s (.ofText s) rs).bind read = some v) :
    Tells read (.list (.text s :: inner)) v := by
  obtain ⟨r, hr, hv⟩ := Option.bind_eq_some_iff.1 hread
  exact ⟨r, .list (.text (.word hs) hinner) hr, hv⟩

/-- What a part tells is told by its forms. -/
theorem Tells.of_forms (h : Tells read part v) {part' : Part} (hforms : part'.forms = part.forms) :
    Tells read part' v := by
  obtain ⟨r, hr, hv⟩ := h
  exact ⟨r, hr.of_forms (by simp only [formsOfAll, hforms]), hv⟩

/-- Parts that follow each other are read back one by one. -/
theorem exists_readsBack (h : List.Forall₂ (Tells read) parts vs) :
    ∃ rs, ReadsBack parts rs ∧ rs.mapM read = some vs := by
  induction h with
  | nil => exact ⟨[], .nil, rfl⟩
  | cons hpart _ ih =>
    obtain ⟨r, hr, hv⟩ := hpart
    obtain ⟨rs, hrs, hvs⟩ := ih
    exact ⟨r :: rs, hr.cons hrs, by simp [List.mapM_cons, hv, hvs]⟩

end

end Part

/-! ## layouts of trees -/

namespace Reading

variable {r : Reading} {rs : List Reading} {e : Expr Unit} {es : List (Expr Unit)}
  {lambda : Option (Lambda Unit)} {s : Stmt Unit}

@[simp] theorem expr?_expr (e : Expr Unit) : (expr e).expr? = some e := rfl

@[simp] theorem pair?_entry (e : Entry Unit) : (entry e).pair? = some e := rfl

@[simp] theorem stmt?_stmt (s : Stmt Unit) : (stmt s).stmt? = some s := rfl

theorem stmt?_of_expr? (h : r.expr? = some e) : r.stmt? = some (.expr () e) := by
  cases r with
  | stmt => cases h
  | _ => simp [stmt?, h]

theorem stmts?_of_stmt? (h : r.stmt? = some s) : r.stmts? = some [s] := by
  cases r with
  | block => cases h
  | _ => simp [stmts?, h]

/-- An argument before others. -/
theorem arguments?_cons (hr : r.expr? = some e) (h : arguments? rs = some (es, lambda)) :
    arguments? (r :: rs) = some (e :: es, lambda) := by
  cases r with
  | lambda l => cases hr
  | _ =>
    rw [arguments?, hr, h]
    · rfl
    · intro _ heq
      cases heq

end Reading

namespace BinaryOp

/-- An operator is read from its sign. -/
@[simp] theorem ofSign?_sign (op : BinaryOp) : ofSign? op.sign = some op := by
  cases op <;> decide

theorem isWord_sign (op : BinaryOp) : IsWord op.sign.toList := by
  cases op <;> decide

@[simp] theorem ofText_sign (op : BinaryOp) : Head.ofText op.sign = .sign := by
  cases op <;> rfl

end BinaryOp

namespace UnaryOp

@[simp] theorem ofSign?_sign (op : UnaryOp) : ofSign? op.sign = some op := by
  cases op <;> decide

theorem isWord_sign (op : UnaryOp) : IsWord op.sign.toList := by
  cases op <;> decide

@[simp] theorem ofText_sign (op : UnaryOp) : Head.ofText op.sign = .sign := by
  cases op <;> rfl

end UnaryOp

namespace Sense

theorem isWord_word (sense : Sense) : IsWord sense.word.toList := by
  cases sense <;> decide

@[simp] theorem ofText_word (sense : Sense) : Head.ofText sense.word = .conditional sense := by
  cases sense <;> rfl

/-- A conditional without its line breaks; `alternative` is its last branch, if it has one. -/
theorem forms_conditional (sense : Sense) (condition branch : Part) (alternative : List Part) :
    (Part.list ([.text sense.word, condition, .indent, .lineBreak, branch]
      ++ alternative ++ [.dedent])).forms
        = (Part.list (.text sense.word :: condition :: branch :: alternative)).forms := by
  simp [Part.forms, Part.formsOfAll]

end Sense

namespace Part

variable {parts : List Part} {part : Part} {e : Expr Unit} {s : Stmt Unit}
  {stmts : List (Stmt Unit)}

/-- Arguments with what comes behind them. -/
theorem Tells.arguments {lparts : List Part} {args : List (Expr Unit)}
    {lambda : Option (Lambda Unit)} (h : List.Forall₂ (Tells Reading.expr?) parts args)
    (hlambda : TellArguments lparts [] lambda) :
    TellArguments (parts ++ lparts) args lambda := by
  induction h with
  | nil => exact hlambda
  | cons hpart _ ih =>
    obtain ⟨r, hr, hv⟩ := hpart
    obtain ⟨rs, hrs, hvs⟩ := ih
    exact ⟨r :: rs, hr.cons hrs, Reading.arguments?_cons hv hvs⟩

theorem formsOfAll_lines (parts : List Part) :
    formsOfAll (parts.flatMap fun part => [.lineBreak, part]) = formsOfAll parts := by
  induction parts with
  | nil => rfl
  | cons part parts ih =>
    rw [List.flatMap_cons, formsOfAll_append, ih]
    simp [formsOfAll, forms]

/-- A block has the form of its statements behind a word. -/
theorem forms_blockPart (parts : List Part) :
    (blockPart parts).forms = (list (.text "block" :: parts)).forms := by
  simp [blockPart, forms, formsOfAll, formsOfAll_lines]

/-- A branch is the list of its word and of what it holds. -/
theorem forms_branchPart (word : String) (branch : Part) :
    (branchPart word branch).forms = (list [.text word, branch]).forms := by
  simp [branchPart, forms, formsOfAll]

/-- A block tells its statements. -/
theorem blockPart_tells (h : List.Forall₂ (Tells Reading.stmt?) parts stmts) :
    Tells Reading.stmts? (blockPart parts) stmts := by
  obtain ⟨rs, hrs, hstmts⟩ := exists_readsBack h
  refine Tells.of_forms (.form (by decide) hrs ?_) (forms_blockPart parts)
  simp [Head.ofText, Reading.build, hstmts, Reading.stmts?]

/-- A value that stands as a statement. -/
theorem Tells.stmt (h : Tells Reading.expr? part e) : Tells Reading.stmt? part (.expr () e) := by
  obtain ⟨r, hr, he⟩ := h
  exact ⟨r, hr, Reading.stmt?_of_expr? he⟩

theorem Tells.alone (h : Tells Reading.stmt? part s) : Tells Reading.stmts? part [s] := by
  obtain ⟨r, hr, hs⟩ := h
  exact ⟨r, hr, Reading.stmts?_of_stmt? hs⟩

theorem list_nil_tells : Tells Reading.stmts? (.list []) [] :=
  ⟨.block [], .list .nil rfl, rfl⟩

/-- So does a source unit, on one line or on several. -/
theorem compactPart_tells (h : List.Forall₂ (Tells Reading.stmt?) parts stmts) :
    Tells Reading.stmts? (compactPart parts) stmts := by
  match parts, stmts, h with
  | [], [], .nil => exact list_nil_tells
  | [_], [_], .cons hpart .nil => exact hpart.alone
  | _ :: _ :: _, _ :: _ :: _, h => exact blockPart_tells h

/-- The body of a lambda. -/
theorem bodyPart_tells {ss : List (Stmt σ)}
    (h : List.Forall₂ (Tells Reading.stmt?) (partsOfStmts ss) stmts) :
    Tells Reading.stmts? (if ss.isEmpty then .list [] else blockPart (partsOfStmts ss)) stmts := by
  cases ss with
  | nil =>
    cases h
    exact list_nil_tells
  | cons => exact blockPart_tells h

/-- A branch of a conditional, opened by `word`. -/
theorem branchPart_readsBack (word : String) (hword : word ∈ ["then", "else"])
    (h : List.Forall₂ (Tells Reading.stmt?) parts stmts) :
    ReadsBack [branchPart word (compactPart parts)] [.branch stmts] := by
  obtain ⟨r, hr, hstmts⟩ := compactPart_tells h
  have hbuild : Reading.build word (.ofText word) [r] = some (.branch stmts) := by
    simp only [List.mem_cons, List.not_mem_nil, or_false] at hword
    obtain rfl | rfl := hword <;> simp [Head.ofText, Reading.build, hstmts]
  have hatom : IsWord word.toList := by
    have hall : ∀ word ∈ ["then", "else"], IsWord word.toList := by decide
    exact hall word hword
  have hform : ReadsBack [.list [.text word, compactPart parts]] [.branch stmts] :=
    .list (.text (.word hatom) hr) hbuild
  exact hform.of_forms (by simp only [formsOfAll, forms_branchPart])

end Part

/-! ## trees that are read back -/

/-- The word of a node is told from others by its text. -/
def Node.Readable : Node σ → Prop
  | stmt _ => True
  | name s .word => IsWord s.toList ∧ atomValue? s.toList = some (.word () s)
  | name s _ => IsWord s.toList
  | leaf word => word.Readable

/-- A literal is told by its text. -/
theorem Literal.toPart_tells {value : Literal} (h : value.Readable) :
    Part.Tells Reading.expr? value.toPart (.literal () value) := by
  have hkeyword (word : Keyword) : IsAtom word.text.toList := by
    refine .word ?_
    cases word <;> decide
  cases value with
  | integer s | float s => exact .atom (.word h.1) h.2
  | string s =>
    have hquoted : ("'" ++ s ++ "'").toList = '\'' :: (s.toList ++ ['\'']) := by simp
    refine .atom ?_ ?_
    · rw [hquoted]
      exact .string h
    · rw [Reading.expr?, hquoted, atomValue?_string, String.ofList_toList]
  | boolean value =>
    cases value with
    | true => exact .atom (hkeyword .trueWord) (atomValue?_keyword .trueWord)
    | false => exact .atom (hkeyword .falseWord) (atomValue?_keyword .falseWord)
  | undef => exact .atom (hkeyword .undefWord) (atomValue?_keyword .undefWord)

theorem Ident.params_readsBack {params : List (Ident σ)}
    (h : ∀ n ∈ params.map Ident.var, n.Readable) :
    ∃ rs, ReadsBack (params.map fun p => .text p.name) rs ∧
      rs.mapM Reading.ident? = some (params.map (Ident.map fun _ => ())) := by
  refine Part.exists_readsBack (List.forall₂_map_left_iff.2 (List.forall₂_map_right_iff.2 ?_))
  refine List.forall₂_same.2 fun p hp => .atom ?_ rfl
  have hvar : p.var.Readable := h p.var (List.mem_map_of_mem hp)
  exact .word hvar.1

/-- A lambda is read back by its parameters and its body. -/
theorem Lambda.toPart_readsBack {l : Lambda σ} (hparams : ∀ n ∈ l.params.map Ident.var, n.Readable)
    {stmts : List (Stmt Unit)}
    (hbody : List.Forall₂ (Part.Tells Reading.stmt?) (partsOfStmts l.body.stmts) stmts) :
    ReadsBack [l.toPart] [.lambda ⟨(), l.params.map (Ident.map fun _ => ()), ⟨(), stmts⟩⟩] := by
  obtain ⟨s, params, ⟨s', ss⟩⟩ := l
  obtain ⟨body, hrest, hstmts⟩ := Part.bodyPart_tells hbody
  rw [Lambda.toPart]
  cases params with
  | nil =>
    refine .list (.text (.word (by decide)) hrest) ?_
    simp [Reading.ofList?, Head.ofText, Reading.build, hstmts]
  | cons p ps =>
    obtain ⟨rs, hrs, hidents⟩ := Ident.params_readsBack hparams
    have hlist : ReadsBack (Ident.parametersPart (p :: ps))
        [.parameters ((p :: ps).map (Ident.map fun _ => ()))] := by
      refine .list (.text (.word (by decide)) hrs) ?_
      simp [Reading.ofList?, Head.ofText, Reading.build, hidents]
    refine .list (.text (.word (by decide)) (hlist.append hrest)) ?_
    simp [Reading.ofList?, Head.ofText, Reading.build, hstmts]

mutual

/-- An expression is told by what is shown of it. -/
theorem Expr.toPart_tells : (e : Expr σ) → (∀ n ∈ e.nodes, n.Readable) →
    e.toPart.Tells Reading.expr? (e.map fun _ => ())
  | .call _ callee args lambda, h => by
    rw [Expr.nodes, List.forall_mem_cons, List.forall_mem_append] at h
    obtain ⟨hcallee, hargs, hlambda⟩ := h
    obtain ⟨rs, hrs, harguments⟩ :=
      Part.Tells.arguments (exprs_tell args hargs) (lambda_tells lambda hlambda)
    refine .form (by decide) (.text (.word hcallee) hrs) ?_
    simp [Head.ofText, Reading.build, harguments, Expr.map, Ident.map]
  | .method _ receiver callee args lambda, h => by
    rw [Expr.nodes, List.forall_mem_append, List.forall_mem_cons, List.forall_mem_append] at h
    obtain ⟨hreceiver, hcallee, hargs, hlambda⟩ := h
    obtain ⟨rs, hrs, harguments⟩ :=
      Part.Tells.arguments (exprs_tell args hargs) (lambda_tells lambda hlambda)
    obtain ⟨r, hr, hexpr⟩ := receiver.toPart_tells hreceiver
    have hselector : ReadsBack [.list [.text ".", receiver.toPart, .text callee.name]]
        [.selector (receiver.map fun _ => ()) callee.name] := by
      refine .list (.text (.word (by decide)) (hr.cons (.text (.word hcallee) .nil))) ?_
      simp [Reading.ofList?, Head.ofText, Reading.build, hexpr]
    refine .form (by decide) (hselector.cons hrs) ?_
    simp [Head.ofText, Reading.build, harguments, Expr.map, Ident.map]
  | .word _ name, h => by
    obtain ⟨hword, hvalue⟩ := h _ List.mem_cons_self
    exact .atom (.word hword) hvalue
  | .reference _ name, h => by
    obtain ⟨hword, hvalue⟩ := h _ List.mem_cons_self
    exact .atom (.word hword) hvalue
  | .var _ name, h => by
    obtain ⟨hword, hvalue⟩ := h _ List.mem_cons_self
    have htext : ("$" ++ name).toList = '$' :: name.toList := String.toList_append
    refine .atom ?_ ?_
    · rw [htext]
      exact .word (hword.cons (by decide))
    · rw [Reading.expr?, htext]
      exact hvalue
  | .literal _ value, h => Literal.toPart_tells (h _ List.mem_cons_self)
  | .array _ items, h => by
    obtain ⟨rs, hrs, hitems⟩ := Part.exists_readsBack (exprs_tell items h)
    refine .form (by decide) hrs ?_
    simp [Head.ofText, Reading.build, hitems, Expr.map]
  | .hash _ entries, h => by
    obtain ⟨rs, hrs, hentries⟩ := Part.exists_readsBack (entries_tell entries h)
    refine .form (by decide) hrs ?_
    simp [Head.ofText, Reading.build, hentries, Expr.map]
  | .access _ target keys, h => by
    rw [Expr.nodes, List.forall_mem_append] at h
    obtain ⟨r, hr, htarget⟩ := target.toPart_tells h.1
    obtain ⟨rs, hrs, hkeys⟩ := Part.exists_readsBack (exprs_tell keys h.2)
    refine .form (by decide) (hr.cons hrs) ?_
    simp [Head.ofText, Reading.build, htarget, hkeys, Expr.map]
  | .binary _ op left right, h => by
    rw [Expr.nodes, List.forall_mem_append, List.forall_mem_cons] at h
    obtain ⟨r, hr, hleft⟩ := left.toPart_tells h.1
    obtain ⟨r', hr', hright⟩ := right.toPart_tells h.2.2
    refine .form op.isWord_sign (hr.cons hr') ?_
    simp [Reading.build, hleft, hright, Expr.map]
  | .unary _ op operand, h => by
    rw [Expr.nodes, List.forall_mem_cons] at h
    obtain ⟨r, hr, hoperand⟩ := operand.toPart_tells h.2
    refine .form op.isWord_sign hr ?_
    simp [Reading.build, hoperand, Expr.map]

theorem exprs_tell : (es : List (Expr σ)) → (∀ n ∈ exprsNodes es, n.Readable) →
    List.Forall₂ (Part.Tells Reading.expr?) (partsOfExprs es) (mapExprs (fun _ => ()) es)
  | [], _ => .nil
  | e :: es, h => by
    rw [exprsNodes, List.forall_mem_append] at h
    exact .cons (e.toPart_tells h.1) (exprs_tell es h.2)

theorem Entry.toPart_tells : (e : Entry σ) → (∀ n ∈ e.nodes, n.Readable) →
    e.toPart.Tells Reading.pair? (e.map fun _ => ())
  | ⟨key, value⟩, h => by
    rw [Entry.nodes, List.forall_mem_append] at h
    obtain ⟨r, hr, hkey⟩ := key.toPart_tells h.1
    obtain ⟨r', hr', hvalue⟩ := value.toPart_tells h.2
    refine .form (by decide) (hr.cons hr') ?_
    simp [Head.ofText, Reading.build, hkey, hvalue, Entry.map]

theorem entries_tell : (es : List (Entry σ)) → (∀ n ∈ entriesNodes es, n.Readable) →
    List.Forall₂ (Part.Tells Reading.pair?) (partsOfEntries es) (mapEntries (fun _ => ()) es)
  | [], _ => .nil
  | e :: es, h => by
    rw [entriesNodes, List.forall_mem_append] at h
    exact .cons (e.toPart_tells h.1) (entries_tell es h.2)

theorem lambda_tells : (lambda : Option (Lambda σ)) → (∀ n ∈ lambdaNodes lambda, n.Readable) →
    Part.TellArguments (partsOfLambda lambda) [] (mapLambda (fun _ => ()) lambda)
  | none, _ => ⟨[], .nil, rfl⟩
  | some ⟨s, params, ⟨s', ss⟩⟩, h => by
    rw [lambdaNodes, Lambda.nodes, Block.nodes, List.forall_mem_append] at h
    exact ⟨_, Lambda.toPart_readsBack h.1 (stmts_tell ss h.2), rfl⟩

/-- A statement is told by what is shown of it. -/
theorem Stmt.toPart_tells : (s : Stmt σ) → (∀ n ∈ s.inside, n.Readable) →
    s.toPart.Tells Reading.stmt? (s.map fun _ => ())
  | .invoke _ callee args lambda, h => by
    rw [Stmt.inside, List.forall_mem_cons, List.forall_mem_append] at h
    obtain ⟨hcallee, hargs, hlambda⟩ := h
    obtain ⟨rs, hrs, harguments⟩ :=
      Part.Tells.arguments (exprs_tell args hargs) (lambda_tells lambda hlambda)
    refine .form (by decide) (.text (.word hcallee) hrs) ?_
    simp [Head.ofText, Reading.build, harguments, Stmt.map, Ident.map]
  | .assign _ target value, h => by
    rw [Stmt.inside, List.forall_mem_append] at h
    obtain ⟨r, hr, htarget⟩ := target.toPart_tells h.1
    obtain ⟨r', hr', hvalue⟩ := value.toPart_tells h.2
    refine .form (by decide) (hr.cons hr') ?_
    simp [Head.ofText, Reading.build, htarget, hvalue, Stmt.map]
  | .conditional _ sense condition ⟨_, stmts⟩ none, h => by
    rw [Stmt.inside, Block.nodes, List.forall_mem_append, List.forall_mem_append] at h
    obtain ⟨r, hr, hcondition⟩ := condition.toPart_tells h.1
    have hthen := Part.branchPart_readsBack "then" (by simp) (stmts_tell stmts h.2.1)
    refine Part.Tells.of_forms (.form sense.isWord_word (hr.cons hthen) ?_)
      (sense.forms_conditional _ _ [])
    simp [Reading.build, hcondition, Stmt.map, Block.map, mapBlock]
  | .conditional _ sense condition ⟨_, stmts⟩ (some ⟨_, others⟩), h => by
    rw [Stmt.inside, blockNodes, Block.nodes, Block.nodes, List.forall_mem_append,
      List.forall_mem_append] at h
    obtain ⟨r, hr, hcondition⟩ := condition.toPart_tells h.1
    have hthen := Part.branchPart_readsBack "then" (by simp) (stmts_tell stmts h.2.1)
    have helse := Part.branchPart_readsBack "else" (by simp) (stmts_tell others h.2.2)
    refine Part.Tells.of_forms (.form sense.isWord_word (hr.cons (hthen.cons helse)) ?_)
      (sense.forms_conditional _ _ [.lineBreak, _])
    simp [Reading.build, hcondition, Stmt.map, Block.map, mapBlock]
  | .expr _ value, h => (value.toPart_tells h).stmt

theorem stmts_tell : (ss : List (Stmt σ)) → (∀ n ∈ stmtsNodes ss, n.Readable) →
    List.Forall₂ (Part.Tells Reading.stmt?) (partsOfStmts ss) (mapStmts (fun _ => ()) ss)
  | [], _ => .nil
  | s :: ss, h => by
    rw [stmtsNodes, List.forall_mem_cons, List.forall_mem_append] at h
    exact .cons (s.toPart_tells h.2.1) (stmts_tell ss h.2.2)

end

/-- A source unit is told by what is shown of it. -/
theorem Program.toPart_tells {p : Program σ} (h : ∀ n ∈ p.nodes, n.Readable) :
    p.toPart.Tells Reading.stmts? p.shape.body.stmts := by
  obtain ⟨s, ss⟩ := p
  exact Part.compactPart_tells (stmts_tell ss h)

/-- A shape has nothing but statements. -/
theorem Program.ext_of_stmts {p p' : Program Unit} (h : p.body.stmts = p'.body.stmts) :
    p = p' := by
  obtain ⟨⟨_, ss⟩⟩ := p
  obtain ⟨⟨_, ss'⟩⟩ := p'
  obtain rfl : ss = ss' := h
  rfl

/-- Trees that are read back from one text have one shape. -/
theorem Program.shape_eq_of_readable {τ : Type} {p : Program σ} {p' : Program τ}
    (h : ∀ n ∈ p.nodes, n.Readable) (h' : ∀ n ∈ p'.nodes, n.Readable)
    (hformat : p.toPart.format = p'.toPart.format) : p.shape = p'.shape := by
  obtain ⟨r, hr, hstmts⟩ := toPart_tells h
  obtain ⟨r', hr', hstmts'⟩ := toPart_tells h'
  have hforms : Part.formsOfAll [p.toPart] = Part.formsOfAll [p'.toPart] := by
    have hatoms := hr.atoms
    have hatoms' := hr'.atoms
    simp only [Part.formsOfAll, List.append_nil] at hatoms hatoms' ⊢
    exact Part.forms_eq_of_format_eq atoms hatoms hatoms' hformat
  have hreadings : some [r] = some [r'] := by rw [← hr.readings, ← hr'.readings, hforms]
  obtain rfl : r = r' := by simpa using hreadings
  exact ext_of_stmts (Option.some.inj (hstmts.symm.trans hstmts'))

/-! ## programs -/

/-- No quote in a string seems to close it, and no bare word has the text of a literal. -/
def Node.isTold : Node σ → Bool
  | leaf (.literal (.string value)) => decide (Unclosing value.toList)
  | name text .word => decide (text ∉ ["true", "false", "undef"])
  | _ => true

/-- What the tree consists of is told by its text. -/
def Program.Told (p : Program σ) : Prop := ∀ n ∈ p.nodes, n.isTold = true

instance (p : Program σ) : Decidable p.Told :=
  inferInstanceAs (Decidable (∀ n ∈ p.nodes, n.isTold = true))

theorem Word.kind_of_name {k : Kind} {text : String} (h : ofKind? k = some (name text)) :
    k = .name text := by
  cases k with
  | name => cases h; rfl
  | keyword word => cases word <;> cases h
  | symbol s => cases s <;> cases h
  | _ => cases h

/-- Each word of a tree is that of a token. -/
theorem Program.exists_leads_of_parse {calls : StatementCalls} {source : String}
    {p : Program Span} (h : parse calls source = .ok p) {word : Word} (hword : word ∈ p.words) :
    ∃ kind piece back, Word.ofKind? kind = some word ∧ Token.Leads (some kind) piece back := by
  have hyields : Yields (Token.significant (Token.ofText source)) p.words :=
    (reads_of_parse h).keeps.yields rfl
  rw [← hyields.1] at hword
  obtain ⟨t, ht, hkind⟩ := List.mem_filterMap.1 hword
  obtain ⟨piece, back, -, hleads⟩ :=
    (Token.divides_scan 0 false source.toList).exists_cuts t (List.mem_of_mem_filter ht)
  exact ⟨t.kind, piece, back, hkind, hleads⟩

/-- What a source is read as is readable, if it is told. -/
theorem Program.readable_of_parse {calls : StatementCalls} {source : String} {p : Program Span}
    (h : parse calls source = .ok p) (htold : p.Told) : ∀ n ∈ p.nodes, n.Readable := by
  intro n hn
  have hleads {word : Word} (hword : n.word? = some word) :
      ∃ kind piece back, Word.ofKind? kind = some word ∧ Token.Leads (some kind) piece back :=
    exists_leads_of_parse h (List.mem_filterMap.2 ⟨n, hn, hword⟩)
  cases n with
  | stmt => trivial
  | leaf word =>
    obtain ⟨kind, piece, back, hkind, hleads⟩ := hleads rfl
    refine word.readable_of_leads hleads hkind ?_
    rintro value rfl
    exact of_decide_eq_true (htold _ hn)
  | name text role =>
    obtain ⟨kind, piece, back, hkind, hleads⟩ := hleads rfl
    have hreadable : (Word.name text).Readable := Word.readable_of_leads hleads hkind nofun
    cases role with
    | word =>
      obtain rfl := Word.kind_of_name hkind
      exact ⟨hreadable, atomValue?_name hleads (of_decide_eq_true (htold _ hn))⟩
    | _ => exact hreadable

/-- **Dumps identify programs** whose words are told: two sources with one dump have one
tree, up to places. -/
theorem Program.shape_eq_of_format_eq {calls calls' : StatementCalls} {source source' : String}
    {p p' : Program Span} (h : parse calls source = .ok p) (h' : parse calls' source' = .ok p')
    (htold : p.Told) (htold' : p'.Told) (hformat : p.toPart.format = p'.toPart.format) :
    p.shape = p'.shape :=
  shape_eq_of_readable (readable_of_parse h htold) (readable_of_parse h' htold') hformat

/-- A source that is read, and what `f` is of its tree. -/
theorem exists_ok_of_map {α : Type} {calls : StatementCalls} {source : String}
    {f : Program Span → α} {v : α} (h : (parse calls source).toOption.map f = some v) :
    ∃ p, parse calls source = .ok p ∧ f p = v := by
  cases hp : parse calls source with
  | error =>
    rw [hp] at h
    cases h
  | ok p =>
    rw [hp] at h
    exact ⟨p, rfl, Option.some.inj h⟩

/-- An argument in brackets has one tree with parentheses around it and without. -/
theorem Program.shape_eq_of_format_eq_brackets :
    ∃ p p', parse .default "if f('it\\'s') \x7b notice [1] \x7d" = .ok p ∧
      parse .default "if f( 'it\\'s' ) \x7b\n notice([1]) \x7d # c" = .ok p' ∧
      p.shape = p'.shape := by
  have hone : (parse .default "if f('it\\'s') \x7b notice [1] \x7d").toOption.map
      (fun p => (decide p.Told, p.toPart.format))
        = some (true, "(if (call f 'it's')\n  (then (invoke notice ([] 1))))") := by
    decide +kernel
  have htwo : (parse .default "if f( 'it\\'s' ) \x7b\n notice([1]) \x7d # c").toOption.map
      (fun p => (decide p.Told, p.toPart.format))
        = some (true, "(if (call f 'it's')\n  (then (invoke notice ([] 1))))") := by
    decide +kernel
  obtain ⟨p, hp, heq⟩ := exists_ok_of_map hone
  obtain ⟨p', hp', heq'⟩ := exists_ok_of_map htwo
  obtain ⟨htold, hformat⟩ := Prod.mk.inj heq
  obtain ⟨htold', hformat'⟩ := Prod.mk.inj heq'
  exact ⟨p, p', hp, hp', shape_eq_of_format_eq hp hp' (of_decide_eq_true htold)
    (of_decide_eq_true htold') (hformat.trans hformat'.symm)⟩

/-- A string with quotes around a space is put down like two strings. -/
theorem Program.shape_ne_of_format_eq_quotes :
    ∃ p p', parse .default "f('a\\' \\'b')" = .ok p ∧ parse .default "f('a', 'b')" = .ok p' ∧
      p.toPart.format = p'.toPart.format ∧ p.shape ≠ p'.shape := by
  have hone : (parse .default "f('a\\' \\'b')").toOption.map
      (fun p => (p.toPart.format, p.shape.words))
        = some ("(invoke f 'a' 'b')", [.name "f", .literal (.string "a' 'b")]) := by
    decide +kernel
  have htwo : (parse .default "f('a', 'b')").toOption.map
      (fun p => (p.toPart.format, p.shape.words))
        = some ("(invoke f 'a' 'b')",
          [.name "f", .literal (.string "a"), .literal (.string "b")]) := by
    decide +kernel
  obtain ⟨p, hp, heq⟩ := exists_ok_of_map hone
  obtain ⟨p', hp', heq'⟩ := exists_ok_of_map htwo
  obtain ⟨hformat, hwords⟩ := Prod.mk.inj heq
  obtain ⟨hformat', hwords'⟩ := Prod.mk.inj heq'
  refine ⟨p, p', hp, hp', hformat.trans hformat'.symm, fun hshape => ?_⟩
  rw [hshape, hwords'] at hwords
  simp at hwords

end CallGrammar
