import CallGrammar.Proofs.Insertion
import CallGrammar.Proofs.Openers
import CallGrammar.Proofs.Reading.Follow

/-!
# CallGrammar.Proofs.Breaks

A line break more in brackets.  The rules skip line breaks behind openers, commas, arrows, bars
and binary operators, and before closers, commas and arrows; nowhere else.  Which of these a place
is is told by the tokens around it (`Breakable`).

`Breaking` puts a line break before marked tokens, each of them in brackets (`Enclosed`).
What stands right in the body of a lambda, or in no brackets, has no marked token (`Unmarked`),
so neither a statement nor a bare argument is torn apart.
-/

namespace CallGrammar

variable {σ : Type}

/-! ## brackets -/

/-- Brackets that hold no statements: arguments or an expression in parentheses, an array or the
keys of an access, a hash. -/
inductive Bracketed (opener : Token σ) : (inner : List (Token σ)) → (closer : Token σ) → Prop where
  | parentheses {inner : List (Token σ)} {closer : Token σ}
      (hopener : opener.kind = .symbol .openParen) (hcloser : closer.kind = .symbol .closeParen) :
      Bracketed opener inner closer
  | brackets {inner : List (Token σ)} {closer : Token σ}
      (hopener : opener.kind = .symbol .openBracket)
      (hcloser : closer.kind = .symbol .closeBracket) : Bracketed opener inner closer
  | hash {key rest : List (Token σ)} {arrow closer : Token σ}
      (hopener : opener.kind = .symbol .openBrace) (hkey : Balanced key)
      (harrow : arrow.kind = .symbol .arrow) (hrest : Balanced rest)
      (hcloser : closer.kind = .symbol .closeBrace) :
      Bracketed opener (key ++ arrow :: rest) closer
  | emptyHash {inner : List (Token σ)} {closer : Token σ}
      (hopener : opener.kind = .symbol .openBrace) (hinner : Newlines inner)
      (hcloser : closer.kind = .symbol .closeBrace) : Bracketed opener inner closer

/-- The innermost brackets around the place between the tokens hold no statements. -/
inductive Enclosed (inside rest : List (Token σ)) : Prop where
  | intro {before left right after : List (Token σ)} {opener closer : Token σ}
      (hinside : inside = before ++ opener :: left) (hrest : rest = right ++ closer :: after)
      (hleft : Balanced left) (hright : Balanced right)
      (hbrackets : Bracketed opener (left ++ right) closer)

section

variable {inside rest rest' ts us : List (Token σ)} {opener closer closer' : Token σ}

/-- Such brackets open a group and close it. -/
theorem Bracketed.groups (h : Bracketed opener ts closer) :
    opener.kind.opensGroup = true ∧ closer.kind.closesGroup = true := by
  cases h with
  | parentheses hopener hcloser | brackets hopener hcloser | hash hopener _ _ _ hcloser
  | emptyHash hopener _ hcloser =>
    rw [hopener, hcloser]
    exact ⟨rfl, rfl⟩

/-- Whether tokens stand in brackets is told by their kinds. -/
theorem Bracketed.of_kinds (h : Bracketed opener ts closer)
    (hkinds : us.map (·.kind) = ts.map (·.kind)) (hcloser' : closer'.kind = closer.kind) :
    Bracketed opener us closer' := by
  cases h with
  | parentheses hopener hcloser => exact .parentheses hopener (hcloser'.trans hcloser)
  | brackets hopener hcloser => exact .brackets hopener (hcloser'.trans hcloser)
  | hash hopener hkey harrow hrest hcloser =>
    rw [List.map_append, List.map_cons] at hkinds
    obtain ⟨vs, ws, rfl, hvs, hws⟩ := List.map_eq_append_iff.1 hkinds
    obtain ⟨v, ws, rfl, hv, hws⟩ := List.map_eq_cons_iff.1 hws
    exact .hash hopener (hkey.of_kinds hvs) (hv.trans harrow) (hrest.of_kinds hws)
      (hcloser'.trans hcloser)
  | emptyHash hopener hinner hcloser =>
    refine .emptyHash hopener (fun u hu => ?_) (hcloser'.trans hcloser)
    have hmem : u.kind ∈ ts.map (·.kind) := hkinds ▸ List.mem_map_of_mem hu
    obtain ⟨t, ht, hkind⟩ := List.mem_map.1 hmem
    exact hkind ▸ hinner t ht

/-- Of what is behind a place in brackets, only the kinds matter. -/
theorem Enclosed.of_kinds (h : Enclosed inside rest)
    (hkinds : rest'.map (·.kind) = rest.map (·.kind)) : Enclosed inside rest' := by
  obtain ⟨hinside, rfl, hleft, hright, hbrackets⟩ := h
  rw [List.map_append, List.map_cons] at hkinds
  obtain ⟨right', after', rfl, hright', hafter⟩ := List.map_eq_append_iff.1 hkinds
  obtain ⟨closer', after', rfl, hcloser, hafter⟩ := List.map_eq_cons_iff.1 hafter
  exact .intro hinside rfl hleft (hright.of_kinds hright')
    (hbrackets.of_kinds (by simp [hright']) hcloser)

/-- A place in brackets is not at the end: the closer is still to come. -/
theorem Enclosed.exists_cons (h : Enclosed inside rest) : ∃ t ts, rest = t :: ts := by
  obtain ⟨-, rfl, -, -, -⟩ := h
  exact List.exists_cons_of_ne_nil (by simp)

end

/-! ## places for a line break -/

/-- The kinds of token that values end with. -/
def Kind.endsValue : Kind → Bool
  | .var _ | .reference _ | .name _ | .integer _ | .float _ | .singleQuoted _ | .doubleQuoted _
  | .keyword .trueWord | .keyword .falseWord | .keyword .undefWord
  | .symbol .closeParen | .symbol .closeBracket | .symbol .closeBrace => true
  | _ => false

/-- The kinds of token behind which line breaks are skipped. -/
def Kind.breaksBehind : Kind → Bool
  | .newline | .symbol .openParen | .symbol .openBracket | .symbol .openBrace
  | .symbol .comma | .symbol .arrow | .symbol .pipe | .symbol .pipePipe => true
  | _ => false

/-- The kinds of token before which line breaks are skipped. -/
def Kind.breaksBefore : Kind → Bool
  | .newline | .symbol .closeParen | .symbol .closeBracket | .symbol .closeBrace
  | .symbol .comma | .symbol .arrow => true
  | _ => false

/-- The last token ends a value. -/
def EndsValue (ts : List (Token σ)) : Prop := ∃ k, lastKind none ts = some k ∧ k.endsValue = true

/-- Between the tokens `inside` and one of the kind `next` line breaks are skipped, if the place
is in brackets.  The sign of a negative number is no binary operator, as no value stands before
it; and a bar behind a variable closes parameters. -/
inductive Breakable (inside : List (Token σ)) (next : Option Kind) : Prop where
  | behind {k : Kind} (hlast : lastKind none inside = some k) (hk : k.breaksBehind = true)
  | operator {front : List (Token σ)} {t : Token σ} {op : BinaryOp}
      (hinside : inside = front ++ [t]) (hleft : EndsValue front)
      (ht : BinaryOp.ofKind? t.kind = some op)
  | before {k : Kind} (hnext : next = some k) (hk : k.breaksBefore = true)
  | bar {name : String} (hlast : lastKind none inside = some (.var name))
      (hnext : next = some (.symbol .pipe))

namespace Kind

variable {k : Kind}

/-- What ends a value is none of the kinds behind which line breaks are skipped. -/
theorem breaksBehind_of_endsValue (h : k.endsValue = true) : k.breaksBehind = false := by
  unfold endsValue at h
  split at h <;> first | rfl | cases h

/-- What ends a value is no operator. -/
theorem ofKind?_of_endsValue (h : k.endsValue = true) : BinaryOp.ofKind? k = none := by
  unfold endsValue at h
  split at h <;> first | rfl | cases h

theorem endsValue_literal {value : Literal} (h : Literal.ofKind? k = some value) :
    k.endsValue = true := by
  unfold Literal.ofKind? at h
  split at h <;> first | rfl | cases h

theorem ne_newline_of_isInert (h : k.isInert = true) : k ≠ .newline := by
  rintro rfl
  cases h

theorem endsValue_binary {op : BinaryOp} (h : BinaryOp.ofKind? k = some op) :
    k.endsValue = false := by
  unfold BinaryOp.ofKind? at h
  split at h <;> first | rfl | cases h

theorem endsValue_unary {op : UnaryOp} (h : UnaryOp.ofKind? k = some op) :
    k.endsValue = false ∧ k.breaksBehind = false ∧ ∀ name, k ≠ .var name := by
  unfold UnaryOp.ofKind? at h
  split at h <;> first | exact ⟨rfl, rfl, nofun⟩ | cases h

theorem endsValue_of_opensCondition {sense : Sense} (h : opensCondition sense k = true) :
    k.endsValue = false ∧ k.breaksBehind = false ∧ BinaryOp.ofKind? k = none := by
  unfold opensCondition at h
  split at h <;> first | exact ⟨rfl, rfl, rfl⟩ | cases h

theorem breaksBefore_binary {op : BinaryOp} (h : BinaryOp.ofKind? k = some op) :
    k.breaksBefore = false ∧ k ≠ .symbol .pipe := by
  unfold BinaryOp.ofKind? at h
  split at h <;> first | exact ⟨rfl, nofun⟩ | cases h

theorem breaksBefore_of_isBrace (k : Kind) (h : isBrace k = true) :
    k.breaksBefore = false ∧ k ≠ .symbol .pipe := by
  unfold isBrace at h
  split at h <;> first | exact ⟨rfl, nofun⟩ | cases h

theorem breaksBefore_of_beginsExpression (k : Kind) (h : beginsExpression k = true) :
    k.breaksBefore = false ∧ k ≠ .symbol .pipe := by
  rw [← Bool.not_eq_true]
  constructor
  · intro hbefore
    unfold breaksBefore at hbefore
    split at hbefore <;> first | cases h | cases hbefore
  · rintro rfl
    cases h

end Kind

section

variable {inside before ts us : List (Token σ)} {t : Token σ} {k : Kind} {next : Option Kind}

/-- The last kind of tokens does not depend on what is before them. -/
theorem lastKind_of_ne_nil (hne : ts ≠ []) (previous previous' : Option Kind) :
    lastKind previous ts = lastKind previous' ts := by
  cases ts with
  | nil => exact absurd rfl hne
  | cons t ts => rfl

theorem lastKind_concat (previous : Option Kind) (ts : List (Token σ)) (t : Token σ) :
    lastKind previous (ts ++ [t]) = some t.kind := by
  rw [lastKind_append, lastKind, lastKind]

theorem EndsValue.ne_nil (h : EndsValue ts) : ts ≠ [] := by
  rintro rfl
  obtain ⟨k, hk, -⟩ := h
  cases hk

/-- Tokens before a value do not change how it ends. -/
theorem EndsValue.prepend (h : EndsValue us) (ts : List (Token σ)) : EndsValue (ts ++ us) := by
  have hne := h.ne_nil
  obtain ⟨k, hk, hends⟩ := h
  exact ⟨k, by rw [lastKind_append, lastKind_of_ne_nil hne _ none, hk], hends⟩

theorem endsValue_concat (ht : t.kind.endsValue = true) (ts : List (Token σ)) :
    EndsValue (ts ++ [t]) :=
  ⟨t.kind, lastKind_concat none ts t, ht⟩

theorem not_endsValue_concat (ht : t.kind.endsValue = false) (ts : List (Token σ)) :
    ¬ EndsValue (ts ++ [t]) := by
  rintro ⟨k, hk, hends⟩
  rw [lastKind_concat, Option.some.injEq] at hk
  rw [← hk, ht] at hends
  cases hends

/-- Behind a token that ends no value, and line breaks, no value has ended. -/
theorem not_endsValue_cons {nl : List (Token σ)} (ht : t.kind.endsValue = false)
    (hnl : Newlines nl) (ts : List (Token σ)) : ¬ EndsValue (ts ++ t :: nl) := by
  obtain rfl | ⟨nl, u, rfl⟩ := nl.eq_nil_or_concat
  · exact not_endsValue_concat ht ts
  · rw [List.concat_eq_append] at hnl ⊢
    rw [← List.cons_append, ← List.append_assoc]
    exact not_endsValue_concat (by rw [eq_of_beq (hnl u (by simp))]; rfl) _

/-- Line breaks end no value. -/
theorem not_endsValue_newlines {nl : List (Token σ)} (h : ¬ EndsValue ts) (hnl : Newlines nl) :
    ¬ EndsValue (ts ++ nl) := by
  cases nl with
  | nil => rwa [List.append_nil]
  | cons t nl => exact not_endsValue_cons (by rw [eq_of_beq hnl.head]; rfl) hnl.tail ts

/-- Where a line cannot be broken: the token before the place is nothing that one goes on behind,
and the one behind it nothing that comes after a line break. -/
theorem not_breakable (hlast : lastKind none inside = some k) (hbehind : k.breaksBehind = false)
    (hoperator : ∀ op, BinaryOp.ofKind? k = some op → ∀ front t, inside = front ++ [t] →
      ¬ EndsValue front)
    (hbefore : ∀ k', next = some k' → k'.breaksBefore = false)
    (hbar : next = some (.symbol .pipe) → ∀ name, k ≠ .var name) : ¬ Breakable inside next := by
  rintro (⟨hlast', hk⟩ | ⟨rfl, hleft, ht⟩ | ⟨hnext, hk⟩ | ⟨hlast', hnext⟩)
  · rw [hlast', Option.some.injEq] at hlast
    rw [hlast, hbehind] at hk
    cases hk
  · rw [lastKind_concat, Option.some.injEq] at hlast
    exact hoperator _ (hlast ▸ ht) _ _ rfl hleft
  · rw [hbefore _ hnext] at hk
    cases hk
  · rw [hlast', Option.some.injEq] at hlast
    exact hbar hnext _ hlast.symm

/-- Behind a value, a line is broken only before a kind that allows it, or a bar. -/
theorem not_breakable_of_endsValue (h : EndsValue inside) (hbefore : k.breaksBefore = false)
    (hbar : k ≠ .symbol .pipe) : ¬ Breakable inside (some k) := by
  obtain ⟨k', hlast, hends⟩ := h
  refine not_breakable hlast (Kind.breaksBehind_of_endsValue hends) (fun op hop => ?_) ?_ ?_
  · rw [Kind.ofKind?_of_endsValue hends] at hop
    cases hop
  · rintro _ ⟨⟩
    exact hbefore
  · rintro ⟨⟩
    exact absurd rfl hbar

/-- Behind a call a bar opens parameters. -/
theorem not_breakable_of_behindCall (h : BehindCall inside) (hbefore : k.breaksBefore = false) :
    ¬ Breakable inside (some k) := by
  obtain hlast | ⟨name, hlast⟩ := h
  all_goals
    refine not_breakable hlast rfl nofun ?_ fun _ => nofun
    rintro _ ⟨⟩
    exact hbefore

/-- Behind a word or sign of no meaning here a line is broken only before what allows it. -/
theorem not_breakable_concat (ht : t.kind.breaksBehind = false)
    (hoperator : BinaryOp.ofKind? t.kind = none) (hbefore : k.breaksBefore = false)
    (hbar : k ≠ .symbol .pipe) : ¬ Breakable (before ++ [t]) (some k) := by
  refine not_breakable (lastKind_concat none before t) ht (fun op hop => ?_) ?_ ?_
  · rw [hoperator] at hop
    cases hop
  · rintro _ ⟨⟩
    exact hbefore
  · rintro ⟨⟩
    exact absurd rfl hbar

end

/-! ## line breaks before tokens -/

/-- Tokens of which some are marked, each in brackets that hold no statements, where a line may be
broken before it; and a line break. -/
structure Breaking (σ : Type) extends Insertion σ where
  tokens : List (Token σ)
  added_kind : added.kind = .newline
  enclosed : ∀ inside t rest, tokens = inside ++ t :: rest → marked t = true →
    Enclosed inside (t :: rest)
  breakable : ∀ inside t rest, tokens = inside ++ t :: rest → marked t = true →
    Breakable inside (some t.kind)

namespace Breaking

open Insertion

variable (w : Breaking σ)

/-- The tokens with line breaks, from the first of them, if there is one, up to the tokens
`after`. -/
def trunk (ts after : List (Token σ)) : List (Token σ) :=
  match ts with
  | [] => []
  | t :: ts => w.place t :: (w.put ts ++ w.lead after)

variable {w} {t : Token σ} {before ts us nl after rest : List (Token σ)} {k : Kind}

theorem trunk_of_ne_nil (h : ts ≠ []) (after : List (Token σ)) :
    w.trunk ts after = w.body ts ++ w.lead after := by
  cases ts with
  | nil => exact absurd rfl h
  | cons t ts => rfl

/-- A trunk with what is put before it is what is put with the tokens and behind them. -/
theorem lead_trunk (ts after : List (Token σ)) :
    w.lead (ts ++ after) ++ w.trunk ts after = w.put ts ++ w.lead after := by
  cases ts <;> simp [lead, trunk, put]

/-- A trunk goes on with what comes behind it. -/
theorem trunk_body (ts after : List (Token σ)) :
    w.trunk ts after ++ w.body after = w.body (ts ++ after) := by
  cases ts with
  | nil => rfl
  | cons t ts => simp [trunk, body, put_append, put_eq after]

/-- Line breaks with more of them are line breaks. -/
theorem newlines_put (h : Newlines nl) : Newlines (w.put nl) :=
  all_put (beq_iff_eq.2 w.added_kind) h

theorem newlines_lead (w : Breaking σ) (ts : List (Token σ)) : Newlines (w.lead ts) :=
  all_lead (p := (· == .newline)) (beq_iff_eq.2 w.added_kind) ts

/-- Line breaks with others put among them, and before the token behind them. -/
theorem newlines_put_append (w : Breaking σ) (h : Newlines nl) (ts : List (Token σ)) :
    Newlines (w.put nl ++ w.lead ts) := (newlines_put h).append (w.newlines_lead ts)

theorem newlines_put_mark (w : Breaking σ) (h : Newlines nl) (t : Token σ) :
    Newlines (w.put nl ++ w.mark t) := w.newlines_put_append h [t]

/-- Separators with line breaks are separators. -/
theorem separators_put_append (w : Breaking σ) (h : Separators ts) (us : List (Token σ)) :
    Separators (w.put ts ++ w.lead us) :=
  (all_put (by rw [w.added_kind]; rfl) h).append ((w.newlines_lead us).all rfl)

/-! ## what is seen of the tokens -/

/-- Tokens with line breaks before them continue no more than the tokens. -/
theorem calmer_put (ts : List (Token σ)) : Calmer ts (w.put ts) where
  head k hk := by
    obtain hhead | hhead := w.headKind_put ts
    · rw [hhead] at hk
      exact .inl hk
    · rw [hhead, w.added_kind] at hk
      obtain rfl := Option.some.inj hk
      exact .inr rfl
  touches hk := by
    obtain hhead | hhead := w.head_put ts
    · rw [headTouches, headTouches, hhead]
    · rw [headKind, hhead, Option.map_some, w.added_kind] at hk
      cases hk
  branch word _ hk := by
    obtain hall | ⟨nl, t, us, rfl, hnl, ht⟩ := newlines_or_cons ts
    · rw [← List.append_nil (w.put ts), headKindPastNewlines_append_of_newlines
        (newlines_put hall)] at hk
      cases hk
    · have hplace : (w.place t).kind ≠ .newline := ht
      rw [put_append, put, ← List.append_assoc, headKindPastNewlines_append_cons
        (w.newlines_put_mark hnl t) hplace] at hk
      rwa [headKindPastNewlines_append_cons hnl ht]

theorem headKind_put_ne (h : headKind ts ≠ some k) (hk : k.endsStatement = false) :
    headKind (w.put ts) ≠ some k :=
  calmer_put ts |>.head_ne h (by rw [hk]; exact Bool.false_ne_true)

/-! ## tokens that are not marked -/

/-- Where a line may not be broken, none is. -/
theorem mark_of_not_breakable (h : w.tokens = before ++ t :: rest)
    (hnot : ¬ Breakable before (some t.kind)) : w.mark t = [] :=
  if_neg fun hmarked => hnot (w.breakable before t rest h hmarked)

/-- No line is broken before tokens that allow none. -/
theorem lead_of_not_breakable (h : w.tokens = before ++ (ts ++ rest))
    (hnot : ∀ k, headKind ts = some k → ¬ Breakable before (some k)) : w.lead ts = [] := by
  cases ts with
  | nil => rfl
  | cons t ts => exact mark_of_not_breakable h (hnot t.kind rfl)

/-- Before the first token of a phrase, where a line is broken before closers and the like only. -/
theorem lead_of_begins {begins : Kind → Bool} (h : w.tokens = before ++ (ts ++ rest))
    (hts : BeginsWith begins ts)
    (hbegins : ∀ k, begins k = true → k.breaksBefore = false ∧ k ≠ .symbol .pipe)
    (hnot : ∀ k : Kind, k.breaksBefore = false → k ≠ .symbol .pipe →
      ¬ Breakable before (some k)) : w.lead ts = [] := by
  obtain ⟨t, us, rfl, ht⟩ := hts
  obtain ⟨hbefore, hbar⟩ := hbegins t.kind ht
  exact mark_of_not_breakable h (hnot t.kind hbefore hbar)

/-- No token outside the brackets of the tokens is marked. -/
def Unmarked (w : Breaking σ) (ts : List (Token σ)) : Prop :=
  ∀ front t rest, ts = front ++ t :: rest → level 0 front = some 0 → w.mark t = []

/-- No token outside of brackets is marked in the first of two runs. -/
theorem Unmarked.left (h : w.Unmarked (ts ++ us)) : w.Unmarked ts := by
  rintro front t rest rfl hfront
  exact h front t (rest ++ us) (by simp) hfront

/-- Nor is one in the second, if the first closes its brackets. -/
theorem Unmarked.right (h : w.Unmarked (ts ++ us)) (hts : level 0 ts = some 0) :
    w.Unmarked us := by
  rintro front t rest rfl hfront
  exact h (ts ++ front) t rest (by simp) (by rw [level_append, hts, Option.bind_some, hfront])

theorem Unmarked.tail (h : w.Unmarked (t :: ts)) (ht : t.kind.isInner = true) : w.Unmarked ts :=
  have happend : w.Unmarked ([t] ++ ts) := h
  happend.right (level_inner ht)

theorem Unmarked.lead (h : w.Unmarked ts) : w.lead ts = [] := by
  cases ts with
  | nil => rfl
  | cons t ts => exact h [] t ts rfl rfl

end Breaking

end CallGrammar
