import CallGrammar.Proofs.Brackets
import CallGrammar.Proofs.Nodes
import CallGrammar.Proofs.Reading.Sound

/-!
# CallGrammar.Proofs.Words

No word of a source is lost, doubled or moved: the words that a tree keeps are
those of the tokens it was read from, and all other tokens are punctuation.

Each lemma of `Phrase.Keeps` shows it of one rule.  A phrase that goes on after a value
adds the words of its tokens to those of the value.
-/

namespace CallGrammar

variable {σ : Type}

/-! ## the words of tokens -/

/-- Line breaks, separators, brackets, bars, dots, signs of assignment, arrows, and
the words around conditions. -/
def Kind.isPunctuation : Kind → Bool
  | .newline | .symbol .semicolon | .symbol .comma | .symbol .dot
  | .symbol .openParen | .symbol .closeParen | .symbol .openBracket | .symbol .closeBracket
  | .symbol .openBrace | .symbol .closeBrace | .symbol .pipe | .symbol .pipePipe
  | .symbol .assign | .symbol .arrow | .keyword .ifWord | .keyword .elsifWord
  | .keyword .elseWord | .keyword .unlessWord => true
  | _ => false

/-- The tokens are the words `ws` in order, with nothing but punctuation between
them. -/
def Yields (ts : List (Token σ)) (ws : List Word) : Prop :=
  ts.filterMap (Word.ofKind? ·.kind) = ws ∧
    ∀ t ∈ ts, Word.ofKind? t.kind = none → t.kind.isPunctuation = true

/-- Punctuation is no word. -/
theorem Kind.ofKind?_of_isPunctuation {k : Kind} (h : k.isPunctuation = true) :
    Word.ofKind? k = none := by
  unfold isPunctuation at h
  split at h <;> first | rfl | cases h

theorem Kind.isPunctuation_closer (construct : Construct) :
    isPunctuation (.symbol construct.closer) = true := by
  cases construct <;> rfl

theorem Kind.isPunctuation_of_opensCondition {sense : Sense} {k : Kind}
    (h : opensCondition sense k = true) : k.isPunctuation = true := by
  unfold opensCondition at h
  split at h <;> first | rfl | cases h

/-- An operator between two operands is a word. -/
theorem Word.ofKind?_binary {k : Kind} {op : BinaryOp} (h : BinaryOp.ofKind? k = some op) :
    Word.ofKind? k = some (.operator op.kind) := by
  rw [← BinaryOp.kind_of_ofKind? h]
  cases op <;> rfl

/-- A sign is a word. -/
theorem Word.ofKind?_unary {k : Kind} {op : UnaryOp} (h : UnaryOp.ofKind? k = some op) :
    Word.ofKind? k = some (.operator op.kind) := by
  rw [← UnaryOp.kind_of_ofKind? h]
  cases op <;> rfl

/-- A literal is a word, with its payload. -/
theorem Word.ofKind?_literal {k : Kind} {value : Literal} (h : Literal.ofKind? k = some value) :
    Word.ofKind? k = some (.literal value) := by
  unfold Literal.ofKind? at h
  split at h <;> cases h <;> rfl

namespace Yields

variable {t : Token σ} {ts us : List (Token σ)} {w : Word} {ws vs : List Word}

theorem nil : Yields ([] : List (Token σ)) [] := ⟨rfl, fun _ h => absurd h List.not_mem_nil⟩

/-- The words of one run of tokens, and then of the next. -/
theorem append (h : Yields ts ws) (h' : Yields us vs) : Yields (ts ++ us) (ws ++ vs) := by
  constructor
  · rw [List.filterMap_append, h.1, h'.1]
  · intro t ht
    obtain ht | ht := List.mem_append.1 ht
    · exact h.2 t ht
    · exact h'.2 t ht

/-- A token that is a word. -/
theorem word (ht : Word.ofKind? t.kind = some w) : Yields [t] [w] := by
  constructor
  · rw [List.filterMap_cons, ht]
    rfl
  · intro u hu hnone
    rw [List.mem_singleton.1 hu, ht] at hnone
    cases hnone

/-- Punctuation gives no words. -/
theorem punctuation (h : AllKinds Kind.isPunctuation ts) : Yields ts [] := by
  constructor
  · exact List.filterMap_eq_nil_iff.2 fun t ht => Kind.ofKind?_of_isPunctuation (h t ht)
  · exact fun t ht _ => h t ht

theorem newlines (h : Newlines ts) : Yields ts [] := punctuation (h.all rfl)

theorem separators (h : Separators ts) : Yields ts [] := punctuation (h.all rfl rfl)

/-- A word first. -/
theorem cons (ht : Word.ofKind? t.kind = some w) (h : Yields ts ws) :
    Yields (t :: ts) (w :: ws) :=
  (word ht).append h

/-- A token of punctuation first. -/
theorem skip {k : Kind} (ht : t.kind = k) (hk : k.isPunctuation = true) (h : Yields ts ws) :
    Yields (t :: ts) ws := by
  have hone : Yields [t] [] := punctuation fun u hu => by rw [List.mem_singleton.1 hu, ht, hk]
  exact hone.append h

/-- A token of punctuation last. -/
theorem close {k : Kind} (ht : t.kind = k) (hk : k.isPunctuation = true) : Yields [t] [] :=
  skip ht hk nil

/-- Words in brackets. -/
theorem brackets {closer : Token σ} {k k' : Kind} (ht : t.kind = k) (h : Yields ts ws)
    (hcloser : closer.kind = k') (hk : k.isPunctuation = true) (hk' : k'.isPunctuation = true) :
    Yields (t :: (ts ++ [closer])) ws := by
  have hinside := h.append (close hcloser hk')
  rw [List.append_nil] at hinside
  exact skip ht hk hinside

end Yields

/-! ## the words of trees -/

/-- The words that a list of nodes keeps. -/
def wordsOf (nodes : List (Node σ)) : List Word := nodes.filterMap Node.word?

section

variable {n m : List (Node σ)}

@[simp] theorem wordsOf_nil : wordsOf ([] : List (Node σ)) = [] := rfl

/-- The words of nodes, in their order. -/
@[simp] theorem wordsOf_append : wordsOf (n ++ m) = wordsOf n ++ wordsOf m :=
  List.filterMap_append

@[simp] theorem wordsOf_stmt (s : Stmt σ) : wordsOf (.stmt s :: n) = wordsOf n := rfl

@[simp] theorem wordsOf_name (text : String) (role : Role σ) :
    wordsOf (.name text role :: n) = .name text :: wordsOf n := rfl

@[simp] theorem wordsOf_leaf (word : Word) : wordsOf (.leaf word :: n) = word :: wordsOf n := rfl

@[simp] theorem wordsOf_params (params : List (Ident σ)) :
    wordsOf (params.map Ident.var) = params.map fun p => .var p.name := by
  induction params with
  | nil => rfl
  | cons p ps ih => rw [List.map_cons, Ident.var, wordsOf_leaf, ih, List.map_cons]

end

/-- The words of what a phrase has been given already. -/
def Phrase.given : Phrase σ → List Word
  | operators _ first | suffixes first | continued first | valueStatement first =>
    wordsOf first.nodes
  | callOf callee => [.name callee.name]
  | lambdaBody _ params => params.map fun p => .var p.name
  | _ => []

/-- The words of the value are those given before, then those of the tokens. -/
def Phrase.Keeps (p : Phrase σ) (ts : List (Token σ)) (v : p.Value) : Prop :=
  ∃ ws, Yields ts ws ∧ wordsOf (p.nodes v) = p.given ++ ws

/-- The words of a value that no words were given with are those of its tokens. -/
theorem Phrase.Keeps.yields {p : Phrase σ} {ts : List (Token σ)} {v : p.Value}
    (h : p.Keeps ts v) (hgiven : p.given = []) : Yields ts (wordsOf (p.nodes v)) := by
  obtain ⟨ws, hws, heq⟩ := h
  rw [heq, hgiven]
  exact hws

theorem Phrase.Keeps.of_yields {p : Phrase σ} {ts : List (Token σ)} {v : p.Value} {ws : List Word}
    (hgiven : p.given = []) (h : Yields ts ws) (hnodes : wordsOf (p.nodes v) = ws) :
    p.Keeps ts v :=
  ⟨ws, h, by rw [hnodes, hgiven, List.nil_append]⟩

/-- A phrase before one that is given its value. -/
theorem Phrase.Keeps.before {p q r : Phrase σ} {ts us : List (Token σ)} {u : p.Value} {v : q.Value}
    {w : r.Value} (h : p.Keeps ts u) (h' : q.Keeps us v) (hgiven : q.given = wordsOf (p.nodes u))
    (hnodes : wordsOf (r.nodes w) = wordsOf (q.nodes v)) (hsame : r.given = p.given) :
    r.Keeps (ts ++ us) w := by
  obtain ⟨ws, hws, heq⟩ := h
  obtain ⟨vs, hvs, heq'⟩ := h'
  refine ⟨ws ++ vs, hws.append hvs, ?_⟩
  rw [hnodes, heq', hgiven, heq, hsame, List.append_assoc]

/-- A name before a phrase that is given it. -/
theorem Phrase.Keeps.of_name {p q : Phrase σ} {t : Token σ} {name : String} {ts : List (Token σ)}
    {u : p.Value} {v : q.Value} (h : q.Keeps ts v) (ht : t.kind = .name name)
    (hgiven : q.given = [.name name]) (hnodes : wordsOf (p.nodes u) = wordsOf (q.nodes v))
    (hnone : p.given = []) : p.Keeps (t :: ts) u := by
  obtain ⟨ws, hws, heq⟩ := h
  refine ⟨_, .cons (congrArg Word.ofKind? ht) hws, ?_⟩
  rw [hnodes, heq, hgiven, hnone, List.singleton_append, List.nil_append]

/-! ## rules -/

namespace Phrase.Keeps

variable {left value first : Expr σ} {t opener closer arrow comma : Token σ} {name : String}
  {args items : List (Expr σ)} {nl nl' nl₁ nl₂ nl₃ nl₄ ts us vs : List (Token σ)}

theorem moreParameters {place : σ} {params : List (Ident σ)} (hnl : Newlines nl)
    (ht : t.kind = .var name) (hnl' : Newlines nl') (hcomma : comma.kind = .symbol .comma)
    (ih : Keeps (.parameters place) ts params) :
    Keeps (.parameters place) (nl ++ t :: (nl' ++ comma :: ts)) (⟨name, t.span⟩ :: params) := by
  have hrest := (Yields.newlines hnl').append (.skip hcomma rfl (ih.yields rfl))
  have hname := Yields.cons (congrArg Word.ofKind? ht) hrest
  exact .of_yields rfl ((Yields.newlines hnl).append hname) rfl

/-- The operator stands between the words of its operands. -/
theorem operator {floor : Nat} {right : Expr σ} {op : BinaryOp} {place : σ}
    (ht : BinaryOp.ofKind? t.kind = some op) (hnl : Newlines nl)
    (ihright : Keeps (.expression (op.level + 1)) ts right)
    (ihrest : Keeps (.operators floor (.binary place op left right)) us value) :
    Keeps (.operators floor left) (t :: (nl ++ (ts ++ us))) value := by
  obtain ⟨ws, hws, heq⟩ := ihrest
  have hright := (Yields.newlines hnl).append ((ihright.yields rfl).append hws)
  refine ⟨_, .cons (Word.ofKind?_binary ht) hright, heq.trans ?_⟩
  simp [Phrase.given, Phrase.nodes, Expr.nodes]

/-- The name of a method, its arguments and its lambda, behind what it is called on. -/
theorem method {dot : Token σ} {lambda : Option (Lambda σ)} {place : σ}
    (hdot : dot.kind = .symbol .dot) (ht : t.kind = .name name)
    (ihargs : Keeps .optionalArguments ts args) (ihlambda : Keeps .optionalLambda us lambda)
    (ihrest : Keeps (.suffixes (.method place first ⟨name, t.span⟩ args lambda)) vs value) :
    Keeps (.suffixes first) (dot :: t :: (ts ++ (us ++ vs))) value := by
  obtain ⟨ws, hws, heq⟩ := ihrest
  have hafter := (ihargs.yields rfl).append ((ihlambda.yields rfl).append hws)
  refine ⟨_, .skip hdot rfl (.cons (congrArg Word.ofKind? ht) hafter), heq.trans ?_⟩
  simp [Phrase.given, Phrase.nodes, Expr.nodes]

/-- The keys of an access, behind what it looks into. -/
theorem access {place : σ} (hopener : opener.kind = .symbol .openBracket)
    (hcloser : closer.kind = .symbol .closeBracket) (ihkeys : Keeps (.elements .access) ts items)
    (ihrest : Keeps (.suffixes (.access place first items)) us value) :
    Keeps (.suffixes first) (opener :: (ts ++ closer :: us)) value := by
  obtain ⟨ws, hws, heq⟩ := ihrest
  refine ⟨_, .skip hopener rfl ((ihkeys.yields rfl).append (.skip hcloser rfl hws)), heq.trans ?_⟩
  simp [Phrase.given, Phrase.nodes, Expr.nodes]

theorem hash {place : σ} {found : List (Entry σ)} (hopener : opener.kind = .symbol .openBrace)
    (hnl : Newlines nl) (hcloser : closer.kind = .symbol .closeBrace)
    (ih : Keeps .entries ts found) :
    Keeps .primary (opener :: (nl ++ (ts ++ [closer]))) (.hash place found) := by
  have hinside := (Yields.newlines hnl).append ((ih.yields rfl).append (.close hcloser rfl))
  refine .of_yields rfl (.skip hopener rfl hinside) ?_
  simp [Phrase.nodes, Expr.nodes]

/-- Parentheses give no words, and a span has none. -/
theorem parentheses {place : σ} (hopener : opener.kind = .symbol .openParen) (hnl : Newlines nl)
    (hnl' : Newlines nl') (hcloser : closer.kind = .symbol .closeParen)
    (ih : Keeps (.expression 0) ts value) :
    Keeps .primary (opener :: (nl ++ (ts ++ (nl' ++ [closer])))) (value.withSpan place) := by
  have hclose := (Yields.newlines hnl').append (.close hcloser rfl)
  have hinside := (Yields.newlines hnl).append ((ih.yields rfl).append hclose)
  refine .of_yields rfl (.skip hopener rfl hinside) ?_
  simp [Phrase.nodes]

/-- An element and the ones behind its comma. -/
theorem moreElements {construct : Construct} (hnl : Newlines nl) (hnl' : Newlines nl')
    (hcomma : comma.kind = .symbol .comma) (ih : Keeps (.expression 0) ts value)
    (ihrest : Keeps (.elements construct) us items) :
    Keeps (.elements construct) (nl ++ (ts ++ (nl' ++ comma :: us))) (value :: items) := by
  have hrest := (Yields.newlines hnl').append (.skip hcomma rfl (ihrest.yields rfl))
  refine .of_yields rfl ((Yields.newlines hnl).append ((ih.yields rfl).append hrest)) ?_
  simp [Phrase.nodes, exprsNodes]

theorem lastEntry {key : Expr σ} (hnl₁ : Newlines nl₁) (harrow : arrow.kind = .symbol .arrow)
    (hnl₂ : Newlines nl₂) (hnl₃ : Newlines nl₃) (ihkey : Keeps (.expression 0) ts key)
    (ihvalue : Keeps (.expression 0) us value) :
    Keeps .entries (ts ++ (nl₁ ++ arrow :: (nl₂ ++ (us ++ nl₃)))) [⟨key, value⟩] := by
  have hvalue := (Yields.newlines hnl₂).append ((ihvalue.yields rfl).append (.newlines hnl₃))
  have hentry := (ihkey.yields rfl).append ((Yields.newlines hnl₁).append (.skip harrow rfl hvalue))
  refine .of_yields rfl hentry ?_
  simp [Phrase.nodes, entriesNodes, Entry.nodes]

/-- The key and the value of an entry, and the ones behind its comma. -/
theorem moreEntries {key : Expr σ} {found : List (Entry σ)} (hnl₁ : Newlines nl₁)
    (harrow : arrow.kind = .symbol .arrow) (hnl₂ : Newlines nl₂) (hnl₃ : Newlines nl₃)
    (hcomma : comma.kind = .symbol .comma) (hnl₄ : Newlines nl₄)
    (ihkey : Keeps (.expression 0) ts key) (ihvalue : Keeps (.expression 0) us value)
    (ihrest : Keeps .entries vs found) :
    Keeps .entries (ts ++ (nl₁ ++ arrow :: (nl₂ ++ (us ++ (nl₃ ++ comma :: (nl₄ ++ vs))))))
      (⟨key, value⟩ :: found) := by
  have hrest := (Yields.newlines hnl₃).append
    (.skip hcomma rfl ((Yields.newlines hnl₄).append (ihrest.yields rfl)))
  have hvalue := (Yields.newlines hnl₂).append ((ihvalue.yields rfl).append hrest)
  have hentry := (ihkey.yields rfl).append ((Yields.newlines hnl₁).append (.skip harrow rfl hvalue))
  refine .of_yields rfl hentry ?_
  simp [Phrase.nodes, entriesNodes, Entry.nodes]

theorem moreArguments (hcomma : comma.kind = .symbol .comma) (hnl : Newlines nl)
    (ihfirst : Keeps (.expression 0) ts first) (ihrest : Keeps .moreBareArguments us args) :
    Keeps .moreBareArguments (comma :: (nl ++ (ts ++ us))) (first :: args) := by
  have hrest := (Yields.newlines hnl).append ((ihfirst.yields rfl).append (ihrest.yields rfl))
  refine .of_yields rfl (.skip hcomma rfl hrest) ?_
  simp [Phrase.nodes, exprsNodes]

/-- The parameters are among the words of the lambda, before those of its body. -/
theorem lambda {params : List (Ident σ)} {body : Lambda σ} {place : σ}
    (hopener : opener.kind = .symbol .pipe) (hcloser : closer.kind = .symbol .pipe)
    (ihparams : Keeps (.parameters place) ts params)
    (ihbody : Keeps (.lambdaBody place params) us body) :
    Keeps .lambda (opener :: (ts ++ closer :: us)) body := by
  obtain ⟨ws, hws, heq⟩ := ihbody
  have hinside := (ihparams.yields rfl).append (.skip hcloser rfl hws)
  refine .of_yields rfl (.skip hopener rfl hinside) (heq.trans ?_)
  simp [Phrase.given, Phrase.nodes]

theorem moreStatements {stmt : Stmt σ} {stmts : List (Stmt σ)} {seps : List (Token σ)}
    (hseps : Separators seps) (ihfirst : Keeps .statement ts stmt)
    (ihrest : Keeps .statements us stmts) :
    Keeps .statements (seps ++ (ts ++ us)) (stmt :: stmts) := by
  have hrest := (ihfirst.yields rfl).append (ihrest.yields rfl)
  refine .of_yields rfl ((Yields.separators hseps).append hrest) ?_
  simp [Phrase.nodes, stmtsNodes]

/-- The condition, the branch and the alternative, in this order. -/
theorem conditional {sense : Sense} {construct : Construct} {thenBranch : Block σ}
    {elseBranch : Option (Block σ)} {place : σ} (ht : opensCondition sense t.kind = true)
    (ihcondition : Keeps (.expression 0) ts value) (ihthen : Keeps (.block construct) us thenBranch)
    (ihelse : Keeps (.alternative sense) vs elseBranch) :
    Keeps (.conditional sense) (t :: (ts ++ (us ++ vs)))
      (.conditional place sense value thenBranch elseBranch) := by
  have hinside := (ihcondition.yields rfl).append ((ihthen.yields rfl).append (ihelse.yields rfl))
  refine .of_yields rfl (.skip rfl (Kind.isPunctuation_of_opensCondition ht) hinside) ?_
  simp [Phrase.nodes, Stmt.inside]

/-- The rest of a call that begins with a name. -/
theorem callRest {call whole : Expr σ} (ihcall : Keeps (.callOf ⟨name, t.span⟩) ts call)
    (ihrest : Keeps (.continued call) us whole) :
    Keeps (.callOf ⟨name, t.span⟩) (ts ++ us) whole :=
  ihcall.before ihrest rfl rfl rfl

end Phrase.Keeps

/-! ## every phrase -/

variable [Location σ]

/-- The words of what is read are those given before, and then those of the tokens. -/
theorem Reads.keeps {context : Context σ} {p : Phrase σ} {ts after : List (Token σ)}
    {v : p.Value} (h : Reads context p ts after v) : p.Keeps ts v := by
  induction h with
  | noParameters hnl _ => exact .of_yields rfl (.newlines hnl) rfl
  | lastParameter hnl ht hnl' _ =>
    have hname := Yields.cons (congrArg Word.ofKind? ht) (.newlines hnl')
    exact .of_yields rfl ((Yields.newlines hnl).append hname) rfl
  | moreParameters hnl ht hnl' hcomma _ ih => exact .moreParameters hnl ht hnl' hcomma ih
  | expression _ _ ihleft ihrest => exact ihleft.before ihrest rfl rfl rfl
  | noOperator _ => exact ⟨[], .nil, (List.append_nil _).symm⟩
  | operator ht _ hnl _ _ ihright ihrest => exact .operator ht hnl ihright ihrest
  | sign ht _ ih =>
    refine .of_yields rfl (.cons (Word.ofKind?_unary ht) (ih.yields rfl)) ?_
    simp [Phrase.nodes, Expr.nodes]
  | operand _ _ ihfirst ihrest => exact ihfirst.before ihrest rfl rfl rfl
  | noSuffix _ _ => exact ⟨[], .nil, (List.append_nil _).symm⟩
  | method hdot ht _ _ _ ihargs ihlambda ihrest => exact .method hdot ht ihargs ihlambda ihrest
  | access hopener _ _ hcloser _ _ ihkeys ihrest => exact .access hopener hcloser ihkeys ihrest
  | var ht => exact .of_yields rfl (.word (congrArg Word.ofKind? ht)) rfl
  | reference ht => exact .of_yields rfl (.word (congrArg Word.ofKind? ht)) rfl
  | literal ht => exact .of_yields rfl (.word (Word.ofKind?_literal ht)) rfl
  | name _ ih => exact ih
  | array hopener _ hcloser ih =>
    have hitems := Yields.brackets hopener (ih.yields rfl) hcloser rfl rfl
    exact .of_yields rfl hitems (by simp [Phrase.nodes, Expr.nodes])
  | hash hopener hnl _ hcloser ih => exact .hash hopener hnl hcloser ih
  | parentheses hopener hnl _ hnl' hcloser ih => exact .parentheses hopener hnl hnl' hcloser ih
  | noElements hnl _ => exact .of_yields rfl (.newlines hnl) rfl
  | lastElement hnl _ hnl' _ _ ih =>
    have hitem := (ih.yields rfl).append (.newlines hnl')
    exact .of_yields rfl ((Yields.newlines hnl).append hitem) (by simp [Phrase.nodes, exprsNodes])
  | moreElements hnl _ hnl' hcomma _ ih ihrest => exact .moreElements hnl hnl' hcomma ih ihrest
  | noEntries _ => exact .of_yields rfl .nil rfl
  | lastEntry _ hnl₁ harrow hnl₂ _ hnl₃ _ _ ihkey ihvalue =>
    exact .lastEntry hnl₁ harrow hnl₂ hnl₃ ihkey ihvalue
  | moreEntries _ hnl₁ harrow hnl₂ _ hnl₃ hcomma hnl₄ _ _ ihkey ihvalue ihrest =>
    exact .moreEntries hnl₁ harrow hnl₂ hnl₃ hcomma hnl₄ ihkey ihvalue ihrest
  | arguments hopener _ hcloser ih =>
    refine .of_yields rfl (.brackets hopener (ih.yields rfl) hcloser rfl rfl) ?_
    simp [Phrase.nodes]
  | noArguments _ => exact .of_yields rfl .nil rfl
  | someArguments _ ih => exact ih
  | bareArguments _ _ ihfirst ihrest =>
    refine .of_yields rfl ((ihfirst.yields rfl).append (ihrest.yields rfl)) ?_
    simp [Phrase.nodes, exprsNodes]
  | noMoreArguments _ => exact .of_yields rfl .nil rfl
  | moreArguments hcomma hnl _ _ ihfirst ihrest => exact .moreArguments hcomma hnl ihfirst ihrest
  | word ht _ => exact .of_yields rfl (.word (congrArg Word.ofKind? ht)) rfl
  | call ht _ ih => exact ih.of_name ht rfl rfl rfl
  | callOf _ _ ihargs ihlambda =>
    refine ⟨_, (ihargs.yields rfl).append (ihlambda.yields rfl), ?_⟩
    simp [Phrase.given, Phrase.nodes, Expr.nodes]
  | noLambda _ _ => exact .of_yields rfl .nil rfl
  | someLambda _ ih => exact ih
  | lambdaNoList ht _ ih =>
    obtain ⟨ws, hws, heq⟩ := ih
    exact .of_yields rfl (.skip ht rfl hws) heq
  | lambda hopener _ hcloser _ ihparams ihbody => exact .lambda hopener hcloser ihparams ihbody
  | lambdaBody hnl _ ih =>
    refine ⟨_, (Yields.newlines hnl).append (ih.yields rfl), ?_⟩
    simp [Phrase.given, Phrase.nodes, Lambda.nodes]
  | block hopener _ hcloser ih =>
    have hinside :=
      Yields.brackets hopener (ih.yields rfl) hcloser rfl (Kind.isPunctuation_closer _)
    exact .of_yields rfl hinside (by simp [Phrase.nodes, Block.nodes])
  | noStatements hseps _ => exact .of_yields rfl (.separators hseps) rfl
  | moreStatements hseps _ _ _ ihfirst ihrest => exact .moreStatements hseps ihfirst ihrest
  | branching _ _ ih => exact ih
  | invocation _ ih => exact ih
  | callableValue _ _ ih ihstmt => exact ih.before ihstmt rfl rfl rfl
  | value _ _ _ ih ihstmt => exact ih.before ihstmt rfl rfl rfl
  | assignment ht _ hnl _ ih =>
    refine ⟨_, .skip ht rfl ((Yields.newlines hnl).append (ih.yields rfl)), ?_⟩
    simp [Phrase.given, Phrase.nodes, Stmt.inside]
  | noAssignment _ => exact ⟨[], .nil, (List.append_nil _).symm⟩
  | conditional ht _ _ _ ihcondition ihthen ihelse =>
    exact .conditional ht ihcondition ihthen ihelse
  | noAlternative _ _ => exact .of_yields rfl .nil rfl
  | elsifAlternative hnl _ _ ih =>
    refine .of_yields rfl ((Yields.newlines hnl).append (ih.yields rfl)) ?_
    simp [Phrase.nodes, blockNodes, Block.nodes, stmtsNodes]
  | elseAlternative hnl ht _ ih =>
    exact .of_yields rfl ((Yields.newlines hnl).append (.skip ht rfl (ih.yields rfl))) rfl
  | wholeCall ht _ _ _ ihcall ihrest =>
    refine (ihcall.callRest ihrest).of_name ht rfl ?_ rfl
    simp [Phrase.nodes, Stmt.inside, Expr.nodes]
  | callValue ht _ _ _ ihcall ihrest => exact (ihcall.callRest ihrest).of_name ht rfl rfl rfl
  | bareCall ht _ _ _ ih =>
    refine .of_yields rfl (.cons (congrArg Word.ofKind? ht) (ih.yields rfl)) ?_
    simp [Phrase.nodes, Stmt.inside, lambdaNodes]
  | wordValue ht _ _ _ ih => exact ih.of_name ht rfl rfl rfl
  | continued _ _ ihleft ihrest => exact ihleft.before ihrest rfl rfl rfl
  | noProgram _ ih => exact .of_yields rfl (ih.yields rfl) rfl
  | program _ _ ih => exact .of_yields rfl (ih.yields rfl) rfl

/-- The tokens of a phrase are words and punctuation. -/
theorem Reads.valid {context : Context σ} {p : Phrase σ} {ts after : List (Token σ)}
    {v : p.Value} (h : Reads context p ts after v) : AllKinds Kind.isValid ts := by
  obtain ⟨ws, hws, -⟩ := h.keeps
  intro t ht
  cases hk : t.kind with
  | invalid fault =>
    have hnone : Word.ofKind? t.kind = none := by rw [hk]; rfl
    have hpunctuation := hws.2 t ht hnone
    rw [hk] at hpunctuation
    cases hpunctuation
  | _ => rfl

/-- **Faithfulness**: a tree keeps the words of its source, each of them once and in
order; the other tokens are punctuation. -/
theorem words_of_parse {calls : StatementCalls} {source : String} {p : Program Span}
    (h : parse calls source = .ok p) :
    (Token.significant (Token.ofText source)).filterMap (Word.ofKind? ·.kind) = p.words ∧
      ∀ t ∈ Token.significant (Token.ofText source),
        Word.ofKind? t.kind = none → t.kind.isPunctuation = true :=
  (reads_of_parse h).keeps.yields rfl

/-- The words of a method call with a lambda. -/
theorem words_of_parse_filter :
    ∃ p, parse .default "$a.filter(!b) |$x| \x7b $x in [-1] \x7d" = .ok p ∧
      p.words = [.var "a", .name "filter", .operator (.symbol .bang), .name "b", .var "x",
        .var "x", .operator (.keyword .inWord), .operator (.symbol .minus),
        .literal (.integer "1")] := by
  have hok : (parse .default "$a.filter(!b) |$x| \x7b $x in [-1] \x7d").isOk = true := by
    decide +kernel
  cases hp : parse .default "$a.filter(!b) |$x| \x7b $x in [-1] \x7d" with
  | ok p => exact ⟨p, rfl, (words_of_parse hp).1.symm.trans (by decide +kernel)⟩
  | error e =>
    rw [hp] at hok
    cases hok

end CallGrammar
