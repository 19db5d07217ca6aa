import CallGrammar.Proofs.Brackets

/-!
# CallGrammar.Proofs.Balance

Brackets that match.  In `Balanced` tokens every bracket that is opened is closed by the
bracket of its kind, and none is closed that is not open; `Closes` counts only how many are
open, which is all that a reading from left to right can keep track of.

In `Outside p` tokens the brackets match as well, and all tokens that are in none of them are
of kinds that `p` holds of.  `Reads.outside` shows this of every phrase: no word of a conditional
and no sign of a statement is in an expression, but in the body of a lambda.
-/

namespace CallGrammar

variable {σ : Type}

/-- The bracket that closes a group. -/
def Kind.closer? : Kind → Option Kind
  | .symbol .openParen => some (.symbol .closeParen)
  | .symbol .openBracket => some (.symbol .closeBracket)
  | .symbol .openBrace => some (.symbol .closeBrace)
  | _ => none

/-- No bracket. -/
def Kind.isInner (k : Kind) : Bool := !k.opensGroup && !k.closesGroup

/-- The brackets among the tokens are balanced and properly nested. -/
inductive Balanced : List (Token σ) → Prop where
  | nil : Balanced []
  | cons {t : Token σ} {ts : List (Token σ)} (ht : t.kind.isInner = true) (h : Balanced ts) :
      Balanced (t :: ts)
  | group {t u : Token σ} {ts us : List (Token σ)} (hmatch : t.kind.closer? = some u.kind)
      (h : Balanced ts) (h' : Balanced us) : Balanced (t :: (ts ++ u :: us))

/-- The tokens close `depth` groups, and all that they open. -/
inductive Closes : (depth : Nat) → List (Token σ) → Prop where
  | nil : Closes 0 []
  | cons {depth : Nat} {t : Token σ} {ts : List (Token σ)} (ht : t.kind.isInner = true)
      (h : Closes depth ts) : Closes depth (t :: ts)
  | opener {depth : Nat} {t : Token σ} {ts : List (Token σ)} (ht : t.kind.opensGroup = true)
      (h : Closes (depth + 1) ts) : Closes depth (t :: ts)
  | closer {depth : Nat} {t : Token σ} {ts : List (Token σ)} (ht : t.kind.closesGroup = true)
      (h : Closes depth ts) : Closes (depth + 1) (t :: ts)

theorem Kind.isInner_iff {k : Kind} :
    k.isInner = true ↔ k.opensGroup = false ∧ k.closesGroup = false := by
  simp [isInner]

theorem Kind.isInner_of_isFlat {k : Kind} (h : k.isFlat = true) : k.isInner = true :=
  isInner_iff.2 ⟨(isFlat_iff h).1, (isFlat_iff h).2.1⟩

/-- What has a closer opens a group, and the closer closes one. -/
theorem Kind.groups_of_closer? {k k' : Kind} (h : k.closer? = some k') :
    k.opensGroup = true ∧ k'.closesGroup = true := by
  unfold closer? at h
  split at h <;> cases h <;> exact ⟨rfl, rfl⟩

namespace Balanced

variable {t u : Token σ} {ts us : List (Token σ)}

/-- Balanced tokens one after the other are balanced. -/
theorem append (h : Balanced ts) (h' : Balanced us) : Balanced (ts ++ us) := by
  induction h with
  | nil => exact h'
  | cons ht _ ih => exact .cons ht ih
  | group hmatch h _ _ ih =>
    rw [List.cons_append, List.append_assoc, List.cons_append]
    exact .group hmatch h ih

/-- Tokens without brackets are balanced. -/
theorem inner (h : AllKinds Kind.isInner ts) : Balanced ts := by
  induction ts with
  | nil => exact .nil
  | cons t ts ih => exact .cons h.head (ih h.tail)

theorem newlines (h : Newlines ts) : Balanced ts := inner (h.all rfl)

end Balanced

/-- Whether brackets are balanced is told by their kinds. -/
theorem Balanced.of_kinds {ts us : List (Token σ)} (h : Balanced ts)
    (hkinds : us.map (·.kind) = ts.map (·.kind)) : Balanced us := by
  induction h generalizing us with
  | nil =>
    obtain rfl := List.map_eq_nil_iff.1 hkinds
    exact .nil
  | cons ht _ ih =>
    obtain ⟨u, us, rfl, hu, hus⟩ := List.map_eq_cons_iff.1 hkinds
    exact .cons (by rw [hu, ht]) (ih hus)
  | group hmatch _ _ ih ih' =>
    obtain ⟨u, us, rfl, hu, hus⟩ := List.map_eq_cons_iff.1 hkinds
    rw [List.map_append, List.map_cons] at hus
    obtain ⟨vs, ws, rfl, hvs, hws⟩ := List.map_eq_append_iff.1 hus
    obtain ⟨v, ws, rfl, hv, hws⟩ := List.map_eq_cons_iff.1 hws
    exact .group (by rw [hu, hv, hmatch]) (ih hvs) (ih' hws)

/-- Balanced tokens leave as many groups open as were open before them. -/
theorem Balanced.closes_append {ts us : List (Token σ)} {depth : Nat} (h : Balanced ts)
    (h' : Closes depth us) : Closes depth (ts ++ us) := by
  induction h generalizing depth us with
  | nil => exact h'
  | cons ht _ ih => exact .cons ht (ih h')
  | group hmatch _ _ ih ih' =>
    obtain ⟨ht, hu⟩ := Kind.groups_of_closer? hmatch
    rw [List.cons_append, List.append_assoc, List.cons_append]
    exact .opener ht (ih (.closer hu (ih' h')))

/-- Balanced tokens close what they open, and nothing else. -/
theorem Balanced.closes {ts : List (Token σ)} (h : Balanced ts) : Closes 0 ts := by
  have hts := h.closes_append .nil
  rwa [List.append_nil] at hts

namespace Closes

variable {depth : Nat} {t : Token σ} {ts : List (Token σ)}

/-- Where nothing is open, no closer comes first. -/
theorem closesGroup_head (h : Closes 0 (t :: ts)) : t.kind.closesGroup = false := by
  cases h with
  | cons ht _ => exact (Kind.isInner_iff.1 ht).2
  | opener ht _ =>
    rw [← Bool.not_eq_true]
    intro hcloses
    rw [Kind.closesGroup_of_opensGroup hcloses] at ht
    cases ht

theorem tail (h : Closes depth (t :: ts)) (ht : t.kind.isInner = true) : Closes depth ts := by
  obtain ⟨hopens, hcloses⟩ := Kind.isInner_iff.1 ht
  cases h with
  | cons _ h => exact h
  | opener ht' _ => rw [hopens] at ht'; cases ht'
  | closer ht' _ => rw [hcloses] at ht'; cases ht'

theorem tail_opener (h : Closes depth (t :: ts)) (ht : t.kind.opensGroup = true) :
    Closes (depth + 1) ts := by
  cases h with
  | cons ht' _ => rw [(Kind.isInner_iff.1 ht').1] at ht; cases ht
  | opener _ h => exact h
  | closer ht' _ => rw [Kind.closesGroup_of_opensGroup ht'] at ht; cases ht

theorem tail_closer (h : Closes (depth + 1) (t :: ts)) (ht : t.kind.closesGroup = true) :
    Closes depth ts := by
  cases h with
  | cons ht' _ => rw [(Kind.isInner_iff.1 ht').2] at ht; cases ht
  | opener ht' _ => rw [Kind.closesGroup_of_opensGroup ht] at ht'; cases ht'
  | closer _ h => exact h

end Closes

/-! ## tokens outside brackets -/

/-- The brackets match, and the tokens outside them are of kinds that `p` holds of. -/
inductive Outside (p : Kind → Bool) : List (Token σ) → Prop where
  | nil : Outside p []
  | cons {t : Token σ} {ts : List (Token σ)} (ht : t.kind.isInner = true) (hp : p t.kind = true)
      (h : Outside p ts) : Outside p (t :: ts)
  | group {t u : Token σ} {ts us : List (Token σ)} (hmatch : t.kind.closer? = some u.kind)
      (h : Balanced ts) (h' : Outside p us) : Outside p (t :: (ts ++ u :: us))

namespace Outside

variable {p p' : Kind → Bool} {t u : Token σ} {ts us : List (Token σ)}

/-- Tokens whose brackets match are balanced. -/
theorem balanced (h : Outside p ts) : Balanced ts := by
  induction h with
  | nil => exact .nil
  | cons ht _ _ ih => exact .cons ht ih
  | group hmatch h _ ih => exact .group hmatch h ih

/-- More kinds may be outside of the brackets. -/
theorem mono (h : Outside p ts) (hp : ∀ k, p k = true → p' k = true) : Outside p' ts := by
  induction h with
  | nil => exact .nil
  | cons ht hk _ ih => exact .cons ht (hp _ hk) ih
  | group hmatch h _ ih => exact .group hmatch h ih

/-- Tokens whose brackets match, one after the other. -/
theorem append (h : Outside p ts) (h' : Outside p us) : Outside p (ts ++ us) := by
  induction h with
  | nil => exact h'
  | cons ht hk _ ih => exact .cons ht hk ih
  | group hmatch h _ ih =>
    rw [List.cons_append, List.append_assoc, List.cons_append]
    exact .group hmatch h ih

/-- Tokens without brackets, all of kinds that may be outside. -/
theorem all (h : AllKinds (fun k => k.isInner && p k) ts) : Outside p ts := by
  induction ts with
  | nil => exact .nil
  | cons t ts ih =>
    obtain ⟨ht, hp⟩ := Bool.and_eq_true_iff.1 h.head
    exact .cons ht hp (ih h.tail)

theorem newlines (h : Newlines ts) (hp : p .newline = true) : Outside p ts := all (h.all hp)

/-- Line breaks before the rest. -/
theorem front (hts : Newlines ts) (h : Outside p us) (hp : p .newline = true) :
    Outside p (ts ++ us) :=
  (newlines hts hp).append h

theorem separators (h : Separators ts) : Outside (fun _ => true) ts := all (h.all rfl rfl)

/-- A token before the rest that is no bracket. -/
theorem cons_of_kind {k : Kind} (ht : t.kind = k) (h : Outside p ts)
    (hk : (k.isInner && p k) = true) : Outside p (t :: ts) := by
  obtain ⟨hinner, hp⟩ := Bool.and_eq_true_iff.1 hk
  exact .cons (by rw [ht, hinner]) (by rw [ht, hp]) h

/-- A group before the rest. -/
theorem group_of_kinds {k k' : Kind} (ht : t.kind = k) (hu : u.kind = k') (h : Outside p' ts)
    (h' : Outside p us) (hmatch : k.closer? = some k') : Outside p (t :: (ts ++ u :: us)) :=
  .group (by rw [ht, hu, hmatch]) h.balanced h'

/-- Between brackets. -/
theorem brackets {k k' : Kind} (ht : t.kind = k) (hu : u.kind = k') (h : Outside p' ts)
    (hmatch : k.closer? = some k') : Outside p (t :: (ts ++ [u])) :=
  group_of_kinds ht hu h .nil hmatch

end Outside

/-! ## every phrase -/

/-- The words and signs that are in statements only. -/
def Kind.inExpression : Kind → Bool
  | .keyword .ifWord | .keyword .unlessWord | .keyword .elsifWord | .keyword .elseWord
  | .symbol .semicolon | .symbol .assign => false
  | _ => true

theorem Kind.inExpression_of_isInert {k : Kind} (h : k.isInert = true) :
    k.inExpression = true := by
  cases k with
  | keyword word => cases word <;> first | rfl | cases h
  | symbol s => cases s <;> first | rfl | cases h
  | _ => rfl

/-- An operator or a literal before the rest. -/
theorem Outside.inert {t : Token σ} {ts : List (Token σ)} (ht : t.kind.isInert = true)
    (h : Outside Kind.inExpression ts) : Outside Kind.inExpression (t :: ts) :=
  .cons (Kind.isInner_of_isFlat (Kind.isFlat_of_isInert ht)) (Kind.inExpression_of_isInert ht) h

/-- What may be outside the brackets of the phrase. -/
def Phrase.outer : Phrase σ → Kind → Bool
  | statements | statement | valueStatement _ | conditional _ | alternative _ | program =>
    fun _ => true
  | _ => Kind.inExpression

/-- The brackets of the phrase match; a block is of a kind that braces enclose. -/
def Phrase.Balances : Phrase σ → List (Token σ) → Prop
  | block construct, ts => construct.closer = .closeBrace → Outside Kind.inExpression ts
  | p, ts => Outside p.outer ts

theorem Outside.any {p : Kind → Bool} {ts : List (Token σ)} (h : Outside p ts) :
    Outside (fun _ => true) ts :=
  h.mono fun _ _ => rfl

/-- The brackets of every phrase match, and outside of them an expression has no kind that only
statements have. -/
theorem Reads.outside [Location σ] {context : Context σ} {p : Phrase σ}
    {ts after : List (Token σ)} {v : p.Value} (h : Reads context p ts after v) :
    p.Balances ts := by
  induction h with
  | noParameters hnl _ => exact .newlines hnl rfl
  | lastParameter hnl ht hnl' _ =>
    exact .front hnl (.cons_of_kind ht (.newlines hnl' rfl) rfl) rfl
  | moreParameters hnl ht hnl' hcomma _ ih =>
    exact .front hnl (.cons_of_kind ht (.front hnl' (.cons_of_kind hcomma ih rfl) rfl) rfl) rfl
  | expression _ _ ihleft ihrest => exact ihleft.append ihrest
  | noOperator _ => exact .nil
  | operator ht _ hnl _ _ ihright ihrest =>
    exact .inert (BinaryOp.inert ht) (.front hnl (ihright.append ihrest) rfl)
  | sign ht _ ihinner => exact .inert (UnaryOp.inert ht) ihinner
  | operand _ _ ihfirst ihrest => exact ihfirst.append ihrest
  | noSuffix _ _ => exact .nil
  | method hdot ht _ _ _ ihargs ihlambda ihrest =>
    exact .cons_of_kind hdot (.cons_of_kind ht (ihargs.append (ihlambda.append ihrest)) rfl) rfl
  | access hopener _ _ hcloser _ _ ihkeys ihrest =>
    exact .group_of_kinds hopener hcloser ihkeys ihrest rfl
  | var ht => exact .cons_of_kind ht .nil rfl
  | reference ht => exact .cons_of_kind ht .nil rfl
  | literal ht => exact .inert (Literal.inert ht) .nil
  | name _ ih => exact ih
  | array hopener _ hcloser ihitems => exact .brackets hopener hcloser ihitems rfl
  | @hash opener closer _ nl ts _ hopener hnl _ hcloser ihfound =>
    have hinside : Outside Kind.inExpression (nl ++ ts) := .front hnl ihfound rfl
    have hgroup : Outside Kind.inExpression _ := hinside.brackets hopener hcloser rfl
    rw [List.append_assoc] at hgroup
    exact hgroup
  | @parentheses opener closer _ nl nl' ts _ hopener hnl _ hnl' hcloser ihinner =>
    have hinside : Outside Kind.inExpression (nl ++ (ts ++ nl')) :=
      .front hnl (ihinner.append (.newlines hnl' rfl)) rfl
    have hgroup : Outside Kind.inExpression _ := hinside.brackets hopener hcloser rfl
    rw [List.append_assoc, List.append_assoc] at hgroup
    exact hgroup
  | noElements hnl _ => exact .newlines hnl rfl
  | lastElement hnl _ hnl' _ _ ihitem =>
    exact .front hnl (ihitem.append (.newlines hnl' rfl)) rfl
  | moreElements hnl _ hnl' hcomma _ ihitem ihrest =>
    exact .front hnl (ihitem.append (.front hnl' (.cons_of_kind hcomma ihrest rfl) rfl)) rfl
  | noEntries _ => exact .nil
  | lastEntry _ hnl₁ harrow hnl₂ _ hnl₃ _ _ ihkey ihvalue =>
    have hvalue := ihvalue.append (.newlines hnl₃ rfl)
    exact ihkey.append (.front hnl₁ (.cons_of_kind harrow (.front hnl₂ hvalue rfl) rfl) rfl)
  | moreEntries _ hnl₁ harrow hnl₂ _ hnl₃ hcomma hnl₄ _ _ ihkey ihvalue ihrest =>
    have hrest := Outside.front hnl₃ (.cons_of_kind hcomma (.front hnl₄ ihrest rfl) rfl) rfl
    have hvalue := ihvalue.append hrest
    exact ihkey.append (.front hnl₁ (.cons_of_kind harrow (.front hnl₂ hvalue rfl) rfl) rfl)
  | arguments hopener _ hcloser ihargs => exact .brackets hopener hcloser ihargs rfl
  | noArguments _ => exact .nil
  | someArguments _ ih => exact ih
  | bareArguments _ _ ihfirst ihrest => exact ihfirst.append ihrest
  | noMoreArguments _ => exact .nil
  | moreArguments hcomma hnl _ _ ihfirst ihrest =>
    exact .cons_of_kind hcomma (.front hnl (ihfirst.append ihrest) rfl) rfl
  | word ht _ => exact .cons_of_kind ht .nil rfl
  | call ht _ ih => exact .cons_of_kind ht ih rfl
  | callOf _ _ ihargs ihlambda => exact ihargs.append ihlambda
  | noLambda _ _ => exact .nil
  | someLambda _ ih => exact ih
  | lambdaNoList ht _ ih => exact .cons_of_kind ht ih rfl
  | lambda hopener _ hcloser _ ihparams ihbody =>
    exact .cons_of_kind hopener (ihparams.append (.cons_of_kind hcloser ihbody rfl)) rfl
  | lambdaBody hnl _ ihbody => exact .front hnl (ihbody rfl) rfl
  | block hopener _ hcloser ihstmts =>
    intro hbrace
    rw [hbrace] at hcloser
    exact .brackets hopener hcloser ihstmts rfl
  | noStatements hseps _ => exact .separators hseps
  | moreStatements hseps _ _ _ ihfirst ihrest =>
    exact (Outside.separators hseps).append (ihfirst.append ihrest)
  | branching _ _ ih => exact ih
  | invocation _ ih => exact ih.any
  | callableValue _ _ ih ihstmt => exact ih.any.append ihstmt
  | value _ _ _ ih ihstmt => exact ih.any.append ihstmt
  | assignment ht _ hnl _ ih =>
    exact .cons_of_kind ht (.front hnl ih.any rfl) rfl
  | noAssignment _ => exact .nil
  | @conditional sense _ _ _ _ _ _ _ _ ht _ _ _ ihcondition ihthen ihelse =>
    exact .cons (Kind.isInner_of_isFlat (Kind.isFlat_of_opensCondition ht)) rfl
      (ihcondition.any.append ((ihthen (Grammar.closer_branchConstruct sense)).any.append ihelse))
  | noAlternative _ _ => exact .nil
  | elsifAlternative hnl _ _ ih => exact .front hnl ih rfl
  | elseAlternative hnl ht _ ih =>
    exact .front hnl (.cons_of_kind ht (ih rfl).any rfl) rfl
  | wholeCall ht _ _ _ ihcall ihrest => exact .cons_of_kind ht (ihcall.append ihrest) rfl
  | callValue ht _ _ _ ihcall ihrest => exact .cons_of_kind ht (ihcall.append ihrest) rfl
  | bareCall ht _ _ _ ih => exact .cons_of_kind ht ih rfl
  | wordValue ht _ _ _ ih => exact .cons_of_kind ht ih rfl
  | continued _ _ ihleft ihrest => exact ihleft.append ihrest
  | noProgram _ ih => exact ih
  | program _ _ ih => exact ih

end CallGrammar
