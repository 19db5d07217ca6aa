import CallGrammar.Proofs.Balance

/-!
# CallGrammar.Proofs.Openers

What a bracket closes is told by the bracket that it matches, and what that one opens, by the
tokens around it.  Two facts about every phrase are what it takes:

1. a name is never left before a parenthesis, so one that stands right behind a name opens
   the arguments of a call (`Sealed`);
2. outside the brackets of a phrase there is an arrow only among the entries of a hash
   (`Plain`), so braces with an arrow of their own hold no statements.
-/

namespace CallGrammar

variable {σ : Type}

/-! ## levels -/

/-- How many groups are open behind the tokens, if `depth` are before them; `none` where one
is closed that is not open. -/
def level (depth : Nat) : List (Token σ) → Option Nat
  | [] => some depth
  | t :: ts =>
    if t.kind.opensGroup then level (depth + 1) ts
    else if t.kind.closesGroup then if depth = 0 then none else level (depth - 1) ts
    else level depth ts

section

variable {t : Token σ} {ts us : List (Token σ)} {depth depth' : Nat}

theorem level_opens (ht : t.kind.opensGroup = true) :
    level depth (t :: ts) = level (depth + 1) ts := by
  simp [level, ht]

theorem level_closes (ht : t.kind.closesGroup = true) :
    level (depth + 1) (t :: ts) = level depth ts := by
  simp [level, ht, Kind.closesGroup_of_opensGroup ht]

theorem level_inner (ht : t.kind.isInner = true) : level depth (t :: ts) = level depth ts := by
  obtain ⟨hopens, hcloses⟩ := Kind.isInner_iff.1 ht
  simp [level, hopens, hcloses]

/-- The depth behind two runs is that behind the second, from that behind the first. -/
theorem level_append : level depth (ts ++ us) = (level depth ts).bind (level · us) := by
  induction ts generalizing depth with
  | nil => rfl
  | cons t ts ih =>
    simp only [List.cons_append, level, ih]
    split
    · rfl
    · split
      · split <;> rfl
      · rfl

/-- With more groups open, more are open behind. -/
theorem level_add (h : level depth ts = some depth') (more : Nat) :
    level (depth + more) ts = some (depth' + more) := by
  induction ts generalizing depth with
  | nil => rw [level, Option.some.inj h]
  | cons t ts ih =>
    simp only [level] at h ⊢
    split at h
    · next ht =>
      rw [if_pos ht, Nat.add_right_comm]
      exact ih h
    · next ht =>
      rw [if_neg ht]
      split at h
      · next hcloses =>
        split at h
        · cases h
        · next hdepth =>
          have hmore := ih h
          rw [if_pos hcloses, if_neg (by omega), show depth + more - 1 = depth - 1 + more by omega]
          exact hmore
      · next hcloses =>
        rw [if_neg hcloses]
        exact ih h

/-- Tidy tokens close what they open. -/
theorem Tidy.level (h : Tidy ts) (depth : Nat) : level depth ts = some depth := by
  induction h generalizing depth with
  | nil => rfl
  | cons ht _ ih => rw [level_inner (Kind.isInner_of_isFlat ht), ih]
  | dotted ht hu _ ih =>
    rw [level_inner (by rw [ht]; rfl), level_inner (by rw [hu]; rfl), ih]
  | group ht _ hu _ ih ih' =>
    rw [level_opens ht, level_append, ih, Option.bind_some, level_closes hu, ih']

/-- Balanced tokens leave the depth as it is. -/
theorem Balanced.level (h : Balanced ts) (depth : Nat) : level depth ts = some depth := by
  induction h generalizing depth with
  | nil => rfl
  | cons ht _ ih => rw [level_inner ht, ih]
  | group hmatch _ _ ih ih' =>
    obtain ⟨ht, hu⟩ := Kind.groups_of_closer? hmatch
    rw [level_opens ht, level_append, ih, Option.bind_some, level_closes hu, ih']

/-- The end of tokens that close what they open opens nothing that it does not close. -/
theorem not_opens_of_level (h : level 0 (ts ++ t :: us) = some 0) (hus : level 0 us = some 0) :
    t.kind.opensGroup = false := by
  rw [← Bool.not_eq_true]
  intro ht
  rw [level_append] at h
  obtain ⟨depth, -, hrest⟩ := Option.bind_eq_some_iff.1 h
  have hopen := level_add hus (depth + 1)
  rw [level_opens ht] at hrest
  rw [Nat.zero_add, hrest] at hopen
  cases hopen

/-- The bracket that the end of some tokens matches is one and the same. -/
theorem eq_of_level {before before' : List (Token σ)} {u : Token σ}
    (h : before ++ t :: ts = before' ++ u :: us) (ht : t.kind.opensGroup = true)
    (hu : u.kind.opensGroup = true) (hts : level 0 ts = some 0) (hus : level 0 us = some 0) :
    before = before' ∧ t = u ∧ ts = us := by
  obtain ⟨as, rfl, has⟩ | ⟨as, rfl, has⟩ := List.append_eq_append_iff.1 h
  · cases as with
    | nil =>
      obtain ⟨rfl, rfl⟩ := List.cons.inj has
      exact ⟨(List.append_nil before).symm, rfl, rfl⟩
    | cons a as =>
      obtain ⟨rfl, rfl⟩ := List.cons.inj has
      rw [not_opens_of_level hts hus] at hu
      cases hu
  · cases as with
    | nil =>
      obtain ⟨rfl, rfl⟩ := List.cons.inj has
      exact ⟨List.append_nil before', rfl, rfl⟩
    | cons a as =>
      obtain ⟨rfl, rfl⟩ := List.cons.inj has
      rw [not_opens_of_level hus hts] at ht
      cases ht

/-- Behind tokens that close what they open no group is closed. -/
theorem not_closes_of_level (hts : level 0 ts = some 0) (h : level 0 (ts ++ t :: us) = some 0) :
    t.kind.closesGroup = false := by
  rw [← Bool.not_eq_true]
  intro ht
  rw [level_append, hts, Option.bind_some, level, Kind.closesGroup_of_opensGroup ht,
    if_neg Bool.false_ne_true, if_pos ht, if_pos rfl] at h
  cases h

/-- The bracket that the front of some tokens is closed by is one and the same. -/
theorem eq_of_level_front {after after' : List (Token σ)} {u : Token σ}
    (h : ts ++ t :: after = us ++ u :: after') (ht : t.kind.closesGroup = true)
    (hu : u.kind.closesGroup = true) (hts : level 0 ts = some 0) (hus : level 0 us = some 0) :
    ts = us := by
  obtain ⟨as, rfl, has⟩ | ⟨as, rfl, has⟩ := List.append_eq_append_iff.1 h
  · cases as with
    | nil => exact (List.append_nil ts).symm
    | cons a as =>
      obtain ⟨rfl, rfl⟩ := List.cons.inj has
      rw [not_closes_of_level hts hus] at ht
      cases ht
  · cases as with
    | nil => exact List.append_nil us
    | cons a as =>
      obtain ⟨rfl, rfl⟩ := List.cons.inj has
      rw [not_closes_of_level hus hts] at hu
      cases hu

end

/-! ## arrows -/

/-- With `depth` groups open before the tokens, there is no arrow where none is open. -/
def Plain (depth : Nat) : List (Token σ) → Prop
  | [] => True
  | t :: ts =>
    if t.kind.opensGroup then Plain (depth + 1) ts
    else if t.kind.closesGroup then Plain (depth - 1) ts
    else (depth = 0 → t.kind ≠ .symbol .arrow) ∧ Plain depth ts

section

variable {t : Token σ} {ts us : List (Token σ)} {depth depth' : Nat}

/-- Two runs are plain if the first is, and the second from the depth that the first leaves. -/
theorem plain_append (h : level depth ts = some depth') :
    Plain depth (ts ++ us) ↔ Plain depth ts ∧ Plain depth' us := by
  induction ts generalizing depth with
  | nil =>
    obtain rfl := Option.some.inj h
    simp [Plain]
  | cons t ts ih =>
    simp only [level, List.cons_append, Plain] at h ⊢
    split at h
    · next ht => simp only [if_pos ht, ih h]
    · next ht =>
      split at h
      · next hcloses =>
        split at h
        · cases h
        · simp only [if_neg ht, if_pos hcloses, ih h]
      · next hcloses => simp only [if_neg ht, if_neg hcloses, ih h, and_assoc]

/-- Inside a group there may be arrows. -/
theorem plain_inside (h : level depth ts = some depth') : Plain (depth + 1) ts := by
  induction ts generalizing depth with
  | nil => trivial
  | cons t ts ih =>
    simp only [level, Plain] at h ⊢
    split at h
    · next ht =>
      rw [if_pos ht]
      exact ih h
    · next ht =>
      rw [if_neg ht]
      split at h
      · next hcloses =>
        split at h
        · cases h
        · next hdepth =>
          have hrest := ih h
          rw [if_pos hcloses, Nat.add_sub_cancel]
          rwa [Nat.sub_add_cancel (Nat.pos_of_ne_zero hdepth)] at hrest
      · next hcloses =>
        rw [if_neg hcloses]
        exact ⟨nofun, ih h⟩

/-- Where no group is open there is no arrow. -/
theorem not_arrow_of_plain (h : Plain depth (ts ++ t :: us)) (hts : level depth ts = some 0) :
    t.kind ≠ .symbol .arrow := by
  have hrest := ((plain_append hts).1 h).2
  intro harrow
  rw [Plain, harrow] at hrest
  exact hrest.1 rfl rfl

/-- What is in brackets may be anything. -/
theorem plain_group {u : Token σ} (ht : t.kind.opensGroup = true) (hts : Tidy ts)
    (hu : u.kind.closesGroup = true) (hus : Plain 0 us) : Plain 0 (t :: (ts ++ u :: us)) := by
  have hopens := Kind.closesGroup_of_opensGroup hu
  rw [Plain, if_pos ht, plain_append (hts.level _), Plain, hopens, if_neg Bool.false_ne_true,
    if_pos hu]
  exact ⟨plain_inside (hts.level 0), hus⟩

end

/-! ## the ends of phrases -/

/-- No bracket, no arrow and no name. -/
def Kind.isQuiet (k : Kind) : Bool := k.isInner && k != .symbol .arrow && !isName k

/-- The tokens close what they open, arrows are in groups only, and a name at the end is not
left before a parenthesis. -/
structure Settled (ts after : List (Token σ)) : Prop where
  closed : level 0 ts = some 0
  plain : Plain 0 ts
  last : ∀ name, lastKind none ts = some (.name name) → headKind after ≠ some (.symbol .openParen)

namespace Settled

variable {t u : Token σ} {ts us after : List (Token σ)}

theorem nil (after : List (Token σ)) : Settled [] after := ⟨rfl, trivial, nofun⟩

/-- Settled tokens one after the other are settled. -/
theorem append (h : Settled ts (us ++ after)) (h' : Settled us after) :
    Settled (ts ++ us) after where
  closed := by rw [level_append, h.closed, Option.bind_some, h'.closed]
  plain := (plain_append h.closed).2 ⟨h.plain, h'.plain⟩
  last name hname := by
    cases us with
    | nil =>
      rw [List.append_nil] at hname
      exact h.last name hname
    | cons u us =>
      rw [lastKind_append] at hname
      exact h'.last name hname

/-- A quiet token first. -/
theorem cons (ht : t.kind.isQuiet = true) (h : Settled ts after) : Settled (t :: ts) after where
  closed := by
    simp only [Kind.isQuiet, Bool.and_eq_true] at ht
    rw [level_inner ht.1.1, h.closed]
  plain := by
    simp only [Kind.isQuiet, Kind.isInner, Bool.and_eq_true, Bool.not_eq_true', bne_iff_ne] at ht
    simp [Plain, ht, h.plain]
  last name hname := by
    cases ts with
    | nil =>
      rw [lastKind, lastKind, Option.some.injEq] at hname
      rw [hname] at ht
      cases ht
    | cons u us => exact h.last name hname

/-- A name first; if it is the last token, no parenthesis follows. -/
theorem name {text : String} (ht : t.kind = .name text)
    (hparen : ts = [] → headKind after ≠ some (.symbol .openParen)) (h : Settled ts after) :
    Settled (t :: ts) after where
  closed := by rw [level_inner (by rw [ht]; rfl), h.closed]
  plain := by
    rw [Plain, ht]
    exact ⟨nofun, h.plain⟩
  last name hname := by
    cases ts with
    | nil => exact hparen rfl
    | cons u us => exact h.last name hname

/-- Brackets first, whatever is in them. -/
theorem group (ht : t.kind.opensGroup = true) (hts : Tidy ts) (hu : u.kind.closesGroup = true)
    (h : Settled us after) : Settled (t :: (ts ++ u :: us)) after where
  closed := by
    rw [level_opens ht, level_append, hts.level, Option.bind_some, level_closes hu, h.closed]
  plain := plain_group ht hts hu h.plain
  last name hname := by
    rw [lastKind, lastKind_append] at hname
    cases us with
    | nil =>
      rw [lastKind, lastKind, Option.some.injEq] at hname
      rw [hname] at hu
      cases hu
    | cons u us => exact h.last name hname

theorem brackets (ht : t.kind.opensGroup = true) (hts : Tidy ts) (hu : u.kind.closesGroup = true)
    (after : List (Token σ)) : Settled (t :: (ts ++ [u])) after :=
  group ht hts hu (nil after)

theorem all (h : AllKinds Kind.isQuiet ts) (after : List (Token σ)) : Settled ts after := by
  induction ts with
  | nil => exact nil after
  | cons t ts ih => exact cons h.head (ih h.tail)

theorem front (h : AllKinds Kind.isQuiet ts) (h' : Settled us after) : Settled (ts ++ us) after :=
  append (all h (us ++ after)) h'

theorem newlines (h : Newlines ts) (after : List (Token σ)) : Settled ts after :=
  all (Newlines.all h rfl) after

theorem separators (h : Separators ts) (after : List (Token σ)) : Settled ts after :=
  all (Separators.all h rfl rfl) after

end Settled

theorem Kind.isQuiet_of_isInert {k : Kind} (h : k.isInert = true) : k.isQuiet = true := by
  cases k with
  | symbol s => cases s <;> first | rfl | cases h
  | name => cases h
  | _ => rfl

theorem Kind.isQuiet_of_opensCondition {sense : Sense} {k : Kind}
    (h : opensCondition sense k = true) : k.isQuiet = true := by
  unfold opensCondition at h
  split at h <;> first | rfl | cases h

/-- All phrases are settled but the entries of a hash. -/
def Phrase.Settles : Phrase σ → (ts after : List (Token σ)) → Prop
  | entries, _, _ => True
  | block construct, ts, after => construct.closer = .closeBrace → Settled ts after
  | _, ts, after => Settled ts after

/-- Where no arguments are read, no parenthesis comes next. -/
theorem Reads.headKind_ne_of_noArguments [Location σ] {context : Context σ}
    {after : List (Token σ)} {args : List (Expr σ)}
    (h : Reads context .optionalArguments [] after args) :
    headKind after ≠ some (.symbol .openParen) := by
  cases h with
  | noArguments hafter => exact hafter
  | someArguments hargs => exact absurd rfl hargs.opens.ne_nil

/-- Every phrase is settled but the entries of a hash, which have arrows of their own. -/
theorem Reads.settles [Location σ] {context : Context σ} {p : Phrase σ}
    {ts after : List (Token σ)} {v : p.Value} (h : Reads context p ts after v) :
    p.Settles ts after := by
  induction h with
  | noParameters hnl _ => exact .newlines hnl _
  | lastParameter hnl ht hnl' _ =>
    exact .front (hnl.all rfl) (.cons (by rw [ht]; rfl) (.newlines hnl' _))
  | moreParameters hnl ht hnl' hcomma _ ih =>
    exact .front (hnl.all rfl)
      (.cons (by rw [ht]; rfl) (.front (hnl'.all rfl) (.cons (by rw [hcomma]; rfl) ih)))
  | expression _ _ ihleft ihrest => exact .append ihleft ihrest
  | noOperator _ => exact .nil _
  | operator ht _ hnl _ _ ihright ihrest =>
    exact .cons (Kind.isQuiet_of_isInert (BinaryOp.inert ht))
      (.front (hnl.all rfl) (.append ihright ihrest))
  | sign ht _ ihinner => exact .cons (Kind.isQuiet_of_isInert (UnaryOp.inert ht)) ihinner
  | operand _ _ ihfirst ihrest => exact .append ihfirst ihrest
  | noSuffix _ _ => exact .nil _
  | @method _ _ _ _ _ _ _ ts us vs after hdot ht hargs _ _ ihargs ihlambda ihrest =>
    have hcall : Settled (ts ++ (us ++ vs)) after :=
      .append (by rwa [List.append_assoc]) (.append ihlambda ihrest)
    refine .cons (by rw [hdot]; rfl) (.name ht ?_ hcall)
    intro hnil
    obtain ⟨rfl, hrest⟩ := List.append_eq_nil_iff.1 hnil
    obtain ⟨rfl, rfl⟩ := List.append_eq_nil_iff.1 hrest
    exact hargs.headKind_ne_of_noArguments
  | access hopener _ hkeys hcloser _ _ _ ihrest =>
    exact .group (by rw [hopener]; rfl) hkeys.tidy (by rw [hcloser]; rfl) ihrest
  | var ht => exact .cons (by rw [ht]; rfl) (.nil _)
  | reference ht => exact .cons (by rw [ht]; rfl) (.nil _)
  | literal ht => exact .cons (Kind.isQuiet_of_isInert (Literal.inert ht)) (.nil _)
  | name _ ih => exact ih
  | array hopener hitems hcloser _ =>
    exact .brackets (by rw [hopener]; rfl) hitems.tidy (by rw [hcloser]; rfl) _
  | @hash opener closer _ nl ts after hopener hnl hfound hcloser _ =>
    have hinside : Tidy (nl ++ ts) := (Tidy.newlines hnl).append hfound.tidy
    have hgroup := Settled.brackets (by rw [hopener]; rfl) hinside (by rw [hcloser]; rfl) after
    rwa [List.append_assoc] at hgroup
  | @parentheses opener closer _ nl nl' ts after hopener hnl hinner hnl' hcloser _ =>
    have hinside : Tidy (nl ++ (ts ++ nl')) :=
      (Tidy.newlines hnl).append (hinner.tidy.append (.newlines hnl'))
    have hgroup := Settled.brackets (by rw [hopener]; rfl) hinside (by rw [hcloser]; rfl) after
    rwa [List.append_assoc, List.append_assoc] at hgroup
  | noElements hnl _ => exact .newlines hnl _
  | lastElement hnl _ hnl' _ _ ih => exact .front (hnl.all rfl) (.append ih (.newlines hnl' _))
  | @moreElements _ _ _ comma nl nl' ts us after hnl _ hnl' hcomma _ ih ihrest =>
    have hrest : Settled (nl' ++ comma :: us) after :=
      .front (hnl'.all rfl) (.cons (by rw [hcomma]; rfl) ihrest)
    exact .front (hnl.all rfl) (.append (by rwa [List.append_assoc]) hrest)
  | noEntries | lastEntry | moreEntries => trivial
  | arguments hopener hargs hcloser _ =>
    exact .brackets (by rw [hopener]; rfl) hargs.tidy (by rw [hcloser]; rfl) _
  | noArguments _ => exact .nil _
  | someArguments _ ih => exact ih
  | bareArguments _ _ ihfirst ihrest => exact .append ihfirst ihrest
  | noMoreArguments _ => exact .nil _
  | moreArguments hcomma hnl _ _ ihfirst ihrest =>
    exact .cons (by rw [hcomma]; rfl) (.front (hnl.all rfl) (.append ihfirst ihrest))
  | word ht hafter => exact .name ht (fun _ => hafter) (.nil _)
  | call ht hcall ih => exact .name ht (fun hnil => absurd hnil hcall.opens.ne_nil) ih
  | callOf _ _ ihargs ihlambda => exact .append ihargs ihlambda
  | noLambda _ _ => exact .nil _
  | someLambda _ ih => exact ih
  | lambdaNoList ht _ ih => exact .cons (by rw [ht]; rfl) ih
  | @lambda opener closer _ _ ts us after hopener _ hcloser _ ihparams ihbody =>
    have hclosed : Settled (closer :: us) after := .cons (by rw [hcloser]; rfl) ihbody
    exact .cons (by rw [hopener]; rfl) (.append ihparams hclosed)
  | lambdaBody hnl _ ih => exact .front (hnl.all rfl) (ih rfl)
  | block hopener hstmts hcloser _ =>
    intro hbrace
    rw [hbrace] at hcloser
    exact .brackets (by rw [hopener]; rfl) hstmts.tidy (by rw [hcloser]; rfl) _
  | noStatements hseps _ => exact .separators hseps _
  | moreStatements hseps _ _ _ ihfirst ihrest =>
    exact .front (hseps.all rfl rfl) (.append ihfirst ihrest)
  | branching _ _ ih => exact ih
  | invocation _ ih => exact ih
  | callableValue _ _ ih ihstmt => exact .append ih ihstmt
  | value _ _ _ ih ihstmt => exact .append ih ihstmt
  | assignment ht _ hnl _ ih => exact .cons (by rw [ht]; rfl) (.front (hnl.all rfl) ih)
  | noAssignment _ => exact .nil _
  | @conditional sense _ _ _ _ ts us vs after ht _ _ _ ihcondition ihthen ihelse =>
    have hbranches := Settled.append (ihthen (Grammar.closer_branchConstruct sense)) ihelse
    exact .cons (Kind.isQuiet_of_opensCondition ht)
      (.append (by rwa [List.append_assoc]) hbranches)
  | noAlternative _ _ => exact .nil _
  | elsifAlternative hnl _ _ ih => exact .front (hnl.all rfl) ih
  | elseAlternative hnl ht _ ih =>
    exact .front (hnl.all rfl) (.cons (by rw [ht]; rfl) (ih rfl))
  | wholeCall ht hcall _ _ ihcall ihrest =>
    exact .name ht (fun hnil => absurd (List.append_eq_nil_iff.1 hnil).1 hcall.opens.ne_nil)
      (.append ihcall ihrest)
  | callValue ht hcall _ _ ihcall ihrest =>
    exact .name ht (fun hnil => absurd (List.append_eq_nil_iff.1 hnil).1 hcall.opens.ne_nil)
      (.append ihcall ihrest)
  | bareCall ht _ hargs _ ih => exact .name ht (fun hnil => absurd hnil hargs.opens.ne_nil) ih
  | wordValue ht hparen _ _ ih =>
    refine .name ht (fun hnil => ?_) ih
    rwa [hnil] at hparen
  | continued _ _ ihleft ihrest => exact .append ihleft ihrest
  | noProgram _ ih => exact ih
  | program _ _ ih => exact ih

/-! ## the ends of calls -/

/-- The last token is a name, or closes arguments. -/
def BehindCall (before : List (Token σ)) : Prop :=
  lastKind none before = some (.symbol .closeParen) ∨
    ∃ name, lastKind none before = some (.name name)

section

variable [Location σ] {context : Context σ} {before ts after : List (Token σ)} {t : Token σ}
  {name : String} {args : List (Expr σ)}

/-- Arguments end with a closing parenthesis. -/
theorem Reads.lastKind_arguments (h : Reads context .arguments ts after args)
    (previous : Option Kind) : lastKind previous ts = some (.symbol .closeParen) := by
  cases h with
  | arguments _ _ hcloser => rw [lastKind, lastKind_append, lastKind, lastKind, hcloser]

/-- Behind a name with its arguments, if it has any, is where a lambda may begin. -/
theorem Reads.behindCall (h : Reads context .optionalArguments ts after args)
    (ht : t.kind = .name name) : BehindCall (before ++ t :: ts) := by
  cases h with
  | noArguments => exact .inr ⟨name, by rw [lastKind_append, lastKind, lastKind, ht]⟩
  | someArguments hargs => exact .inl (by rw [lastKind_append, lastKind, hargs.lastKind_arguments])

end

end CallGrammar
