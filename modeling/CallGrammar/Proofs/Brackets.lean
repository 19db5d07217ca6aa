import CallGrammar.Proofs.Reading

/-!
# CallGrammar.Proofs.Brackets

Where a call ends, told from its tokens alone: its arguments are what stands between
a parenthesis and the bracket that closes it, and its lambda, if a bar follows, goes
on to the brace that closes the next one.

`Reads.tidy` shows that every phrase closes the brackets that it opens.
-/

namespace CallGrammar

variable {σ : Type}

/-! ## groups -/

def Kind.opensGroup : Kind → Bool
  | .symbol .openParen | .symbol .openBracket | .symbol .openBrace => true
  | _ => false

def Kind.closesGroup : Kind → Bool
  | .symbol .closeParen | .symbol .closeBracket | .symbol .closeBrace => true
  | _ => false

/-- What stands between the bars of a lambda. -/
def Kind.isParameter : Kind → Bool
  | .var _ | .symbol .comma | .newline => true
  | _ => false

/-- Anything but a fault. -/
def Kind.isValid : Kind → Bool
  | .invalid _ => false
  | _ => true

/-- The tokens up to the one that closes the outermost group, `depth` groups being
open already. -/
def groupFrom : Nat → List (Token σ) → List (Token σ)
  | _, [] => []
  | depth, t :: ts =>
    if t.kind.opensGroup then t :: groupFrom (depth + 1) ts
    else if t.kind.closesGroup then
      if depth ≤ 1 then [t] else t :: groupFrom (depth - 1) ts
    else t :: groupFrom depth ts

/-- The tokens of a call after its name: the arguments in parentheses, and the
lambda if there is one. -/
def callTokens (ts : List (Token σ)) : List (Token σ) :=
  let args := groupFrom 0 ts
  let rest := ts.drop args.length
  if (headKind rest).any isBar then args ++ groupFrom 0 rest else args

/-- The kind of the last token; `previous` if there is none. -/
def lastKind (previous : Option Kind) : List (Token σ) → Option Kind
  | [] => previous
  | t :: ts => lastKind (some t.kind) ts

/-- The last kind of two runs is that of the second, or else of the first. -/
theorem lastKind_append (previous : Option Kind) (ts us : List (Token σ)) :
    lastKind previous (ts ++ us) = lastKind (lastKind previous ts) us := by
  induction ts generalizing previous with
  | nil => rfl
  | cons t ts ih => exact ih (some t.kind)

/-! ## closed groups -/

/-- No bracket and no dot. -/
def Kind.isFlat (k : Kind) : Bool := !k.opensGroup && !k.closesGroup && k != .symbol .dot

/-- Every bracket that is opened is closed, none is closed that is not open, and a
name follows each dot. -/
inductive Tidy : List (Token σ) → Prop where
  | nil : Tidy []
  | cons {t : Token σ} {ts : List (Token σ)} (ht : t.kind.isFlat = true) (h : Tidy ts) :
      Tidy (t :: ts)
  | dotted {t u : Token σ} {name : String} {ts : List (Token σ)} (ht : t.kind = .symbol .dot)
      (hu : u.kind = .name name) (h : Tidy ts) : Tidy (t :: u :: ts)
  | group {t u : Token σ} {ts us : List (Token σ)} (ht : t.kind.opensGroup = true) (h : Tidy ts)
      (hu : u.kind.closesGroup = true) (h' : Tidy us) : Tidy (t :: (ts ++ u :: us))

/-- One group, with flat tokens before it. -/
def IsGroup (ts : List (Token σ)) : Prop := ∀ rest, groupFrom 0 (ts ++ rest) = ts

theorem Kind.isFlat_iff {k : Kind} (h : k.isFlat = true) :
    k.opensGroup = false ∧ k.closesGroup = false ∧ k ≠ .symbol .dot := by
  simpa [isFlat, and_assoc] using h

/-- A closer opens nothing. -/
theorem Kind.closesGroup_of_opensGroup {k : Kind} (h : k.closesGroup = true) :
    k.opensGroup = false := by
  unfold closesGroup at h
  split at h <;> first | rfl | cases h

/-- A token that is no bracket is in the group, and the group goes on. -/
theorem groupFrom_flat {t : Token σ} (ht : t.kind.isFlat = true) (depth : Nat)
    (ts : List (Token σ)) : groupFrom depth (t :: ts) = t :: groupFrom depth ts := by
  obtain ⟨hopens, hcloses, -⟩ := Kind.isFlat_iff ht
  rw [groupFrom, hopens, hcloses]
  rfl

/-- A bracket in the group opens another one in it. -/
theorem groupFrom_opens {t : Token σ} (ht : t.kind.opensGroup = true) (depth : Nat)
    (ts : List (Token σ)) : groupFrom depth (t :: ts) = t :: groupFrom (depth + 1) ts := by
  rw [groupFrom, if_pos ht]

/-- The closer of an inner group does not end the outer one. -/
theorem groupFrom_closes {t : Token σ} (ht : t.kind.closesGroup = true) (depth : Nat)
    (ts : List (Token σ)) :
    groupFrom (depth + 2) (t :: ts) = t :: groupFrom (depth + 1) ts := by
  have hopens := Kind.closesGroup_of_opensGroup ht
  have hdepth : ¬ depth + 2 ≤ 1 := by omega
  rw [groupFrom, hopens, if_neg Bool.false_ne_true, if_pos ht, if_neg hdepth]
  rfl

/-- The closer of the group itself ends it. -/
theorem groupFrom_last {t : Token σ} (ht : t.kind.closesGroup = true) (ts : List (Token σ)) :
    groupFrom 1 (t :: ts) = [t] := by
  have hopens := Kind.closesGroup_of_opensGroup ht
  rw [groupFrom, hopens, if_neg Bool.false_ne_true, if_pos ht, if_pos (Nat.le_refl 1)]

namespace Tidy

variable {t u : Token σ} {ts us : List (Token σ)}

/-- Tidy tokens one after the other are tidy. -/
theorem append (h : Tidy ts) (h' : Tidy us) : Tidy (ts ++ us) := by
  induction h with
  | nil => exact h'
  | cons ht _ ih => exact .cons ht ih
  | dotted ht hu _ ih => exact .dotted ht hu ih
  | group ht h hu _ _ ih =>
    rw [List.cons_append, List.append_assoc, List.cons_append]
    exact .group ht h hu ih

/-- Inside a group, tidy tokens do not close it. -/
theorem groupFrom_append (h : Tidy ts) (depth : Nat) (rest : List (Token σ)) :
    groupFrom (depth + 1) (ts ++ rest) = ts ++ groupFrom (depth + 1) rest := by
  induction h generalizing depth rest with
  | nil => rfl
  | cons ht _ ih => rw [List.cons_append, groupFrom_flat ht, ih, List.cons_append]
  | @dotted t u name ts ht hu _ ih =>
    have ht : groupFrom (depth + 1) (t :: u :: (ts ++ rest))
        = t :: groupFrom (depth + 1) (u :: (ts ++ rest)) := by
      rw [groupFrom, ht]
      rfl
    have hu : u.kind.isFlat = true := by rw [hu]; rfl
    rw [List.cons_append, List.cons_append, ht, groupFrom_flat hu, ih]
    rfl
  | @group t u ts us ht _ hu _ ih ih' =>
    rw [List.cons_append, List.append_assoc, List.cons_append, groupFrom_opens ht, ih,
      groupFrom_closes hu, ih', List.cons_append, List.append_assoc, List.cons_append]

/-- Tokens that are neither brackets nor dots are tidy. -/
theorem flat (h : AllKinds Kind.isFlat ts) : Tidy ts := by
  induction ts with
  | nil => exact .nil
  | cons t ts ih =>
    exact .cons h.head (ih h.tail)

theorem newlines (h : Newlines ts) : Tidy ts := flat (h.all rfl)

theorem separators (h : Separators ts) : Tidy ts := flat (h.all rfl rfl)

/-- Between brackets. -/
theorem brackets (h : Tidy ts) (ht : t.kind.opensGroup = true) (hu : u.kind.closesGroup = true) :
    Tidy (t :: (ts ++ [u])) :=
  .group ht h hu .nil

/-- No dot is left open at the end. -/
theorem lastKind_ne_dot (h : Tidy ts) {previous : Option Kind}
    (hp : previous ≠ some (.symbol .dot)) : lastKind previous ts ≠ some (.symbol .dot) := by
  induction h generalizing previous with
  | nil => exact hp
  | cons ht _ ih => exact ih fun heq => (Kind.isFlat_iff ht).2.2 (Option.some.inj heq)
  | @dotted t u name ts _ hu _ ih =>
    have hname : some u.kind ≠ some (Kind.symbol .dot) := by rw [hu]; exact nofun
    exact ih hname
  | @group t u ts us _ _ hu _ _ ih =>
    have hcloser : some u.kind ≠ some (Kind.symbol .dot) := by
      intro heq
      rw [Option.some.inj heq] at hu
      cases hu
    rw [lastKind, lastKind_append]
    exact ih hcloser

end Tidy

namespace IsGroup

variable {t u : Token σ} {ts us : List (Token σ)}

/-- Tidy tokens in brackets are a group. -/
theorem brackets (h : Tidy ts) (ht : t.kind.opensGroup = true) (hu : u.kind.closesGroup = true) :
    IsGroup (t :: (ts ++ [u])) := by
  intro rest
  rw [List.cons_append, List.append_assoc, groupFrom_opens ht, h.groupFrom_append]
  exact congrArg (fun us => t :: (ts ++ us)) (groupFrom_last hu rest)

/-- Flat tokens before a group do not end it. -/
theorem append (h : AllKinds Kind.isFlat ts) (h' : IsGroup us) : IsGroup (ts ++ us) := by
  induction ts with
  | nil => exact h'
  | cons t ts ih =>
    intro rest
    have hts := ih h.tail
    rw [List.cons_append, List.cons_append, groupFrom_flat h.head, hts]

theorem cons (ht : t.kind.isFlat = true) (h : IsGroup ts) : IsGroup (t :: ts) :=
  append (fun u hu => by rw [List.mem_singleton.1 hu, ht]) h

end IsGroup

/-! ## every phrase -/

/-- The tokens of the phrase are tidy; those of arguments, lambdas and blocks are one
group. -/
def Phrase.Tidy : Phrase σ → List (Token σ) → Prop
  | parameters _, ts => AllKinds Kind.isFlat ts
  | arguments, ts | lambda, ts | lambdaBody _ _, ts => CallGrammar.Tidy ts ∧ IsGroup ts
  | block construct, ts => construct.closer = .closeBrace → CallGrammar.Tidy ts ∧ IsGroup ts
  | _, ts => CallGrammar.Tidy ts

theorem Newlines.flat {ts : List (Token σ)} (h : Newlines ts) : AllKinds Kind.isFlat ts :=
  h.all rfl

/-- Operators and literals: they enclose nothing, and they name nothing. -/
def Kind.isInert (k : Kind) : Bool :=
  (BinaryOp.ofKind? k).isSome || (UnaryOp.ofKind? k).isSome || (Literal.ofKind? k).isSome

theorem BinaryOp.inert {k : Kind} {op : BinaryOp} (h : BinaryOp.ofKind? k = some op) :
    k.isInert = true := by
  simp [Kind.isInert, h]

theorem UnaryOp.inert {k : Kind} {op : UnaryOp} (h : UnaryOp.ofKind? k = some op) :
    k.isInert = true := by
  simp [Kind.isInert, h]

theorem Literal.inert {k : Kind} {value : Literal} (h : Literal.ofKind? k = some value) :
    k.isInert = true := by
  simp [Kind.isInert, h]

theorem Kind.isFlat_of_isInert {k : Kind} (h : k.isInert = true) : k.isFlat = true := by
  cases k with
  | symbol s => cases s <;> first | rfl | cases h
  | _ => rfl

theorem Kind.isFlat_of_isParameter {k : Kind} (h : k.isParameter = true) : k.isFlat = true := by
  unfold Kind.isParameter at h
  split at h <;> first | rfl | cases h

theorem Kind.isFlat_of_opensCondition {sense : Sense} {k : Kind}
    (h : opensCondition sense k = true) : k.isFlat = true := by
  unfold opensCondition at h
  split at h <;> first | rfl | cases h

/-- Every phrase closes the brackets that it opens; arguments, lambdas and blocks are groups of
their own. -/
theorem Reads.tidy [Location σ] {context : Context σ} {p : Phrase σ} {ts after : List (Token σ)}
    {v : p.Value} (h : Reads context p ts after v) : p.Tidy ts := by
  induction h with
  | noParameters hnl _ => exact hnl.flat
  | lastParameter hnl ht hnl' _ => exact hnl.flat.append (.cons (by rw [ht]; rfl) hnl'.flat)
  | moreParameters hnl ht hnl' hcomma _ ih =>
    have hrest := hnl'.flat.append (.cons (by rw [hcomma]; rfl) ih)
    exact hnl.flat.append (.cons (by rw [ht]; rfl) hrest)
  | expression _ _ ihleft ihrest => exact ihleft.append ihrest
  | noOperator _ => exact .nil
  | operator ht _ hnl _ _ ihright ihrest =>
    have hright := (Tidy.newlines hnl).append (ihright.append ihrest)
    exact .cons (Kind.isFlat_of_isInert (BinaryOp.inert ht)) hright
  | sign ht _ ihinner => exact .cons (Kind.isFlat_of_isInert (UnaryOp.inert ht)) ihinner
  | operand _ _ ihfirst ihrest => exact ihfirst.append ihrest
  | noSuffix _ _ => exact .nil
  | method hdot ht _ _ _ ihargs ihlambda ihrest =>
    exact .dotted hdot ht (ihargs.append (ihlambda.append ihrest))
  | access hopener _ _ hcloser _ _ ihkeys ihrest =>
    exact .group (by rw [hopener]; rfl) ihkeys (by rw [hcloser]; rfl) ihrest
  | var ht => exact .cons (by rw [ht]; rfl) .nil
  | reference ht => exact .cons (by rw [ht]; rfl) .nil
  | literal ht => exact .cons (Kind.isFlat_of_isInert (Literal.inert ht)) .nil
  | name _ ih => exact ih
  | array hopener _ hcloser ihitems =>
    exact .group (by rw [hopener]; rfl) ihitems (by rw [hcloser]; rfl) .nil
  | @hash opener closer _ nl ts _ hopener hnl _ hcloser ihfound =>
    have hinside := (Tidy.newlines hnl).append ihfound
    have hgroup := hinside.brackets (t := opener) (u := closer) (by rw [hopener]; rfl)
      (by rw [hcloser]; rfl)
    rw [List.append_assoc] at hgroup
    exact hgroup
  | @parentheses opener closer _ nl nl' ts _ hopener hnl _ hnl' hcloser ihinner =>
    have hinside := (Tidy.newlines hnl).append (ihinner.append (.newlines hnl'))
    have hgroup := hinside.brackets (t := opener) (u := closer) (by rw [hopener]; rfl)
      (by rw [hcloser]; rfl)
    rw [List.append_assoc, List.append_assoc] at hgroup
    exact hgroup
  | noElements hnl _ => exact .newlines hnl
  | lastElement hnl _ hnl' _ _ ihitem =>
    exact (Tidy.newlines hnl).append (ihitem.append (.newlines hnl'))
  | moreElements hnl _ hnl' hcomma _ ihitem ihrest =>
    have hrest := (Tidy.newlines hnl').append (.cons (by rw [hcomma]; rfl) ihrest)
    exact (Tidy.newlines hnl).append (ihitem.append hrest)
  | noEntries _ => exact .nil
  | lastEntry _ hnl₁ harrow hnl₂ _ hnl₃ _ _ ihkey ihvalue =>
    have hvalue := (Tidy.newlines hnl₂).append (ihvalue.append (.newlines hnl₃))
    exact ihkey.append ((Tidy.newlines hnl₁).append (.cons (by rw [harrow]; rfl) hvalue))
  | moreEntries _ hnl₁ harrow hnl₂ _ hnl₃ hcomma hnl₄ _ _ ihkey ihvalue ihrest =>
    have hrest := Tidy.cons (by rw [hcomma]; rfl) ((Tidy.newlines hnl₄).append ihrest)
    have hvalue := (Tidy.newlines hnl₂).append (ihvalue.append ((Tidy.newlines hnl₃).append hrest))
    exact ihkey.append ((Tidy.newlines hnl₁).append (.cons (by rw [harrow]; rfl) hvalue))
  | arguments hopener _ hcloser ihargs =>
    exact ⟨ihargs.brackets (by rw [hopener]; rfl) (by rw [hcloser]; rfl),
      .brackets ihargs (by rw [hopener]; rfl) (by rw [hcloser]; rfl)⟩
  | noArguments _ => exact .nil
  | someArguments _ ih => exact ih.1
  | bareArguments _ _ ihfirst ihrest => exact ihfirst.append ihrest
  | noMoreArguments _ => exact .nil
  | moreArguments hcomma hnl _ _ ihfirst ihrest =>
    exact .cons (by rw [hcomma]; rfl) ((Tidy.newlines hnl).append (ihfirst.append ihrest))
  | word ht _ => exact .cons (by rw [ht]; rfl) .nil
  | call ht _ ih => exact .cons (by rw [ht]; rfl) ih
  | callOf _ _ ihargs ihlambda => exact ihargs.1.append ihlambda
  | noLambda _ _ => exact .nil
  | someLambda _ ih => exact ih.1
  | lambdaNoList ht _ ih =>
    exact ⟨.cons (by rw [ht]; rfl) ih.1, .cons (by rw [ht]; rfl) ih.2⟩
  | lambda hopener _ hcloser _ ihparams ihbody =>
    have hpipe := Tidy.cons (by rw [hcloser]; rfl) ihbody.1
    have hpipe' := IsGroup.cons (by rw [hcloser]; rfl) ihbody.2
    exact ⟨.cons (by rw [hopener]; rfl) ((Tidy.flat ihparams).append hpipe),
      .cons (by rw [hopener]; rfl) (.append ihparams hpipe')⟩
  | lambdaBody hnl _ ihbody =>
    obtain ⟨htidy, hgroup⟩ := ihbody rfl
    exact ⟨(Tidy.newlines hnl).append htidy, .append hnl.flat hgroup⟩
  | block hopener _ hcloser ihstmts =>
    intro hbrace
    rw [hbrace] at hcloser
    exact ⟨ihstmts.brackets (by rw [hopener]; rfl) (by rw [hcloser]; rfl),
      .brackets ihstmts (by rw [hopener]; rfl) (by rw [hcloser]; rfl)⟩
  | noStatements hseps _ => exact .separators hseps
  | moreStatements hseps _ _ _ ihfirst ihrest =>
    exact (Tidy.separators hseps).append (ihfirst.append ihrest)
  | branching _ _ ih => exact ih
  | invocation _ ih => exact ih
  | callableValue _ _ ih ihstmt => exact ih.append ihstmt
  | value _ _ _ ih ihstmt => exact ih.append ihstmt
  | assignment ht _ hnl _ ih =>
    exact .cons (by rw [ht]; rfl) ((Tidy.newlines hnl).append ih)
  | noAssignment _ => exact .nil
  | @conditional sense _ _ _ _ _ _ _ _ ht _ _ _ ihcondition ihthen ihelse =>
    exact .cons (Kind.isFlat_of_opensCondition ht)
      (ihcondition.append ((ihthen (Grammar.closer_branchConstruct sense)).1.append ihelse))
  | noAlternative _ _ => exact .nil
  | elsifAlternative hnl _ _ ih => exact (Tidy.newlines hnl).append ih
  | elseAlternative hnl ht _ ih =>
    exact (Tidy.newlines hnl).append (.cons (by rw [ht]; rfl) (ih rfl).1)
  | wholeCall ht _ _ _ ihcall ihrest => exact .cons (by rw [ht]; rfl) (ihcall.append ihrest)
  | callValue ht _ _ _ ihcall ihrest => exact .cons (by rw [ht]; rfl) (ihcall.append ihrest)
  | bareCall ht _ _ _ ih => exact .cons (by rw [ht]; rfl) ih
  | wordValue ht _ _ _ ih => exact .cons (by rw [ht]; rfl) ih
  | continued _ _ ihleft ihrest => exact ihleft.append ihrest
  | noProgram _ ih => exact ih
  | program _ _ ih => exact ih

/-- Behind the group of the arguments, the lambda is part of the call if a bar follows. -/
theorem callTokens_group {ts : List (Token σ)} (h : IsGroup ts) (rest : List (Token σ)) :
    callTokens (ts ++ rest)
      = if (headKind rest).any isBar then ts ++ groupFrom 0 rest else ts := by
  unfold callTokens
  simp only [h rest, List.drop_left]

/-- The tokens of a call are found from its opening parenthesis on. -/
theorem callTokens_of_callOf [Location σ] {context : Context σ} {callee : Ident σ}
    {ts after : List (Token σ)} {v : Expr σ} (h : Reads context (.callOf callee) ts after v) :
    callTokens (ts ++ after) = ts := by
  cases h with
  | @callOf _ _ _ ts us _ hargs hlambda =>
    rw [List.append_assoc, callTokens_group hargs.tidy.2]
    cases hlambda with
    | noLambda hpipe hpipes =>
      have hbar : (headKind after).any isBar = false := by
        cases hk : headKind after with
        | none => rfl
        | some k =>
          rw [hk] at hpipe hpipes
          rw [Option.any_some]
          unfold isBar
          split <;> simp_all
      rw [List.nil_append, hbar, if_neg Bool.false_ne_true, List.append_nil]
    | someLambda hlambda =>
      obtain ⟨k, hk, hbar⟩ := (hlambda.opens.append after).headKind
      rw [hk, Option.any_some, if_pos hbar, hlambda.tidy.2 after]

end CallGrammar
