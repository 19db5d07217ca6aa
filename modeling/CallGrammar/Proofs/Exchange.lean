import CallGrammar.Proofs.Reading.Continues
import CallGrammar.Proofs.Subtree

/-!
# CallGrammar.Proofs.Exchange

The tokens of a statement, or of the body of one, may be exchanged for others that are read
as the same: nothing around them sees the difference.

The rules see of a phrase the first token, the place of the last one and the tree.  So if the
first token and the place of the last one stay (`Swapped`), the rules around a part derive
what they did before (`Reads.exchanges`).
-/

namespace CallGrammar

variable {σ : Type}

/-! ## other tokens at the same place -/

/-- The place of the last token. -/
def lastPlace (ts : List (Token σ)) : Option σ := ts.getLast?.map (·.span)

/-- The tokens `ts'` are `ts` but for some behind a token that is no line break; the last
token is at the same place. -/
inductive Swapped : (ts ts' : List (Token σ)) → Prop where
  | intro (gap : List (Token σ)) {t : Token σ} {us us' : List (Token σ)} (rest : List (Token σ))
      (ht : t.kind ≠ .newline) (hlast : lastPlace (t :: us') = lastPlace (t :: us)) :
      Swapped (gap ++ t :: (us ++ rest)) (gap ++ t :: (us' ++ rest))

/-- Where tokens end is told by their last one, so by the last of the second run. -/
theorem lastPlace_append {ts ts' : List (Token σ)} (h : lastPlace ts' = lastPlace ts)
    (us : List (Token σ)) : lastPlace (ts' ++ us) = lastPlace (ts ++ us) := by
  unfold lastPlace at h ⊢
  rw [List.getLast?_append, List.getLast?_append]
  cases us.getLast? with
  | none => exact h
  | some t => rfl

theorem lastPlace_append_right {us us' : List (Token σ)} (h : lastPlace us' = lastPlace us)
    (ts : List (Token σ)) : lastPlace (ts ++ us') = lastPlace (ts ++ us) := by
  unfold lastPlace at h ⊢
  rw [List.getLast?_append, List.getLast?_append]
  cases hus : us.getLast? <;> cases hus' : us'.getLast? <;> simp_all

theorem lastPlace_append_of_ne_nil {us : List (Token σ)} (hne : us ≠ []) (ts : List (Token σ)) :
    lastPlace (ts ++ us) = lastPlace us := by
  rw [lastPlace, List.getLast?_append_of_ne_nil ts hne]
  rfl

/-- A place that reaches to the end of tokens is told by where they end. -/
theorem through_of_lastPlace [Location σ] {ts ts' : List (Token σ)}
    (h : lastPlace ts' = lastPlace ts) (first : σ) : through first ts' = through first ts := by
  unfold lastPlace at h
  unfold through
  cases hts : ts.getLast? <;> cases hts' : ts'.getLast? <;> simp_all

/-- From a first token to the place of the last one. -/
theorem through_eq_merge [Location σ] {ts : List (Token σ)} {last : σ}
    (h : lastPlace ts = some last) (first : σ) : through first ts = Location.merge first last := by
  obtain ⟨t, ht, rfl⟩ := Option.map_eq_some_iff.1 h
  rw [through, ht]

namespace Swapped

variable {ts ts' : List (Token σ)}

/-- Tokens before the exchanged ones. -/
theorem front (h : Swapped ts ts') (gap : List (Token σ)) : Swapped (gap ++ ts) (gap ++ ts') := by
  cases h with
  | intro gap' rest ht hlast =>
    rw [← List.append_assoc, ← List.append_assoc]
    exact .intro (gap ++ gap') rest ht hlast

/-- Tokens behind the exchanged ones. -/
theorem behind (h : Swapped ts ts') (gap : List (Token σ)) : Swapped (ts ++ gap) (ts' ++ gap) := by
  cases h with
  | intro gap' rest ht hlast =>
    rw [List.append_assoc, List.cons_append, List.append_assoc, List.append_assoc,
      List.cons_append, List.append_assoc]
    exact .intro gap' (rest ++ gap) ht hlast

/-- The first token is not exchanged. -/
theorem head (h : Swapped ts ts') : ts'.head? = ts.head? := by
  cases h with
  | intro gap => cases gap <;> rfl

/-- What stands on tokens has one, and no line break comes first. -/
theorem exists_cons {t : Token σ} (h : Swapped (t :: ts) ts') : ∃ us, ts' = t :: us := by
  cases ts' with
  | nil => exact absurd h.head nofun
  | cons u us => exact ⟨us, by rw [Option.some.inj h.head]⟩

theorem headKind (h : Swapped ts ts') : CallGrammar.headKind ts' = CallGrammar.headKind ts := by
  rw [CallGrammar.headKind, h.head]
  rfl

theorem headTouches (h : Swapped ts ts') :
    CallGrammar.headTouches ts' = CallGrammar.headTouches ts := by
  rw [CallGrammar.headTouches, h.head]
  rfl

theorem headKindPastNewlines (h : Swapped ts ts') :
    CallGrammar.headKindPastNewlines ts' = CallGrammar.headKindPastNewlines ts := by
  cases h with
  | intro gap rest ht hlast =>
    obtain hall | ⟨nl, u, vs, rfl, hnl, hu⟩ := newlines_or_cons gap
    · rw [headKindPastNewlines_append_cons hall ht, headKindPastNewlines_append_cons hall ht]
    · rw [List.append_assoc, List.append_assoc, List.cons_append, List.cons_append,
        headKindPastNewlines_append_cons hnl hu, headKindPastNewlines_append_cons hnl hu]

/-- What continued the tokens continues those that they are exchanged for. -/
theorem calmer (h : Swapped ts ts') (after : List (Token σ)) :
    Calmer (ts ++ after) (ts' ++ after) :=
  have hbehind := h.behind after
  ⟨fun _ hk => .inl (hbehind.headKind ▸ hk), fun _ => hbehind.headTouches,
    fun _ _ hk => hbehind.headKindPastNewlines ▸ hk⟩

/-- The exchanged tokens end where the old ones did. -/
theorem lastPlace (h : Swapped ts ts') : CallGrammar.lastPlace ts' = CallGrammar.lastPlace ts := by
  cases h with
  | intro gap rest ht hlast =>
    rw [lastPlace_append_of_ne_nil (List.cons_ne_nil _ _),
      lastPlace_append_of_ne_nil (List.cons_ne_nil _ _)]
    exact lastPlace_append hlast rest

/-- So a place that reaches to their end is the same. -/
theorem through [Location σ] (h : Swapped ts ts') (first : σ) :
    CallGrammar.through first ts' = CallGrammar.through first ts :=
  through_of_lastPlace h.lastPlace first

theorem place (h : Swapped ts ts') (finish : σ) :
    (Cursor.start ts').place finish = (Cursor.start ts).place finish := by
  cases h with
  | intro gap => cases gap <;> rfl

end Swapped

/-! ## parts and their tokens -/

namespace Subtree

/-- The parts whose tokens say where they end: statements and bodies. -/
def IsClosed : Subtree σ → Prop
  | stmt _ | block _ => True
  | _ => False

/-- The part is in one of the others. -/
def In (m : Subtree σ) (ns : List (Subtree σ)) : Prop := ∃ n ∈ ns, n.Contains m

variable {m n : Subtree σ} {ns ms : List (Subtree σ)}

theorem not_in_nil : ¬ m.In [] := fun ⟨_, hn, _⟩ => absurd hn List.not_mem_nil

theorem in_cons : m.In (n :: ns) ↔ n.Contains m ∨ m.In ns := by simp [In]

theorem in_append : m.In (ns ++ ms) ↔ m.In ns ∨ m.In ms := by
  simp [In, or_and_right, exists_or]

/-- What a part contains is the part itself or in one of its children. -/
theorem Contains.cases (h : n.Contains m) : n = m ∨ m.In n.children := by
  cases h with
  | here => exact .inl rfl
  | child hc h => exact .inr ⟨_, hc, h⟩

/-- What is in an expression, a lambda or a name, and closed, is in its parts. -/
theorem IsClosed.in_children (hm : m.IsClosed) (h : n.Contains m) (hn : ¬ n.IsClosed) :
    m.In n.children := by
  obtain rfl | h := h.cases
  · exact absurd hm hn
  · exact h

theorem IsClosed.not_in_ident {i : Ident σ} (hm : m.IsClosed) : ¬ (ident i).Contains m :=
  fun h => not_in_nil (hm.in_children h nofun)

/-- A closed part in an expression is in one of the parts of it. -/
theorem IsClosed.in_expr {e : Expr σ} (hm : m.IsClosed) (h : (expr e).Contains m) :
    m.In e.children :=
  hm.in_children h nofun

theorem IsClosed.in_single {e : Expr σ} (hm : m.IsClosed) (h : m.In [expr e]) :
    m.In e.children :=
  hm.in_expr ((in_cons.1 h).resolve_right not_in_nil)

/-- A closed part in a lambda is in its body. -/
theorem IsClosed.in_lambda {l : Lambda σ} (hm : m.IsClosed) (h : (lambda l).Contains m) :
    (block l.body).Contains m := by
  obtain h | h := in_append.1 (hm.in_children h nofun)
  · obtain ⟨n, hn, hcontains⟩ := h
    obtain ⟨i, -, rfl⟩ := List.mem_map.1 hn
    exact absurd hcontains hm.not_in_ident
  · exact (in_cons.1 h).resolve_right not_in_nil

/-- What is in the parts of a call is in the arguments or in the lambda. -/
theorem IsClosed.in_call {callee : Ident σ} {args : List (Expr σ)} {lambda : Option (Lambda σ)}
    (hm : m.IsClosed) (h : m.In (callChildren callee args lambda)) :
    m.In (args.map .expr) ∨ m.In (lambda.toList.map .lambda) :=
  in_append.1 ((in_cons.1 h).resolve_left hm.not_in_ident)

end Subtree

variable [Location σ] {context : Context σ}

/-- The part stands on the tokens, where the tokens `after` follow: a statement, a body in
braces, or an `elsif` with its condition and branches, which is a statement and the body of
another. -/
inductive StandsOn (context : Context σ) :
    (m : Subtree σ) → (ts after : List (Token σ)) → Prop where
  | stmt {s : Stmt σ} {ts after : List (Token σ)} (h : Reads context .statement ts after s) :
      StandsOn context (.stmt s) ts after
  | block {construct : Construct} {b : Block σ} {ts after : List (Token σ)}
      (hbraces : construct.closer = .closeBrace) (h : Reads context (.block construct) ts after b) :
      StandsOn context (.block b) ts after
  | branch {m : Subtree σ} {s : Stmt σ} {t : Token σ} {ts after : List (Token σ)}
      (ht : t.kind = .keyword .elsifWord)
      (h : Reads context (.conditional .ifTrue) (t :: ts) after s)
      (hm : m = .stmt s ∨ m = .block ⟨s.span, [s]⟩) : StandsOn context m (t :: ts) after

/-- Any braces are those of any body. -/
theorem Reads.block_of {construct construct' : Construct} {b : Block σ}
    {ts after : List (Token σ)}
    (h : Reads context (.block construct) ts after b) (hbraces : construct.closer = .closeBrace)
    (hbraces' : construct'.closer = .closeBrace) :
    Reads context (.block construct') ts after b := by
  cases h with
  | block hopener hstmts hcloser =>
    exact .block hopener hstmts (by rw [hcloser, hbraces, hbraces'])

namespace StandsOn

variable {m : Subtree σ} {t : Token σ} {ts after : List (Token σ)}

theorem exists_cons (h : StandsOn context m ts after) :
    ∃ t us, ts = t :: us ∧ t.kind ≠ .newline := by
  cases h with
  | stmt h =>
    obtain ⟨t, us, rfl, ht⟩ : BeginsWith beginsStatement ts := h.opens
    exact ⟨t, us, rfl, fun hk => by rw [hk] at ht; cases ht⟩
  | block hbraces h =>
    obtain ⟨t, us, rfl, ht⟩ : BeginsWith isBrace ts := h.opens
    exact ⟨t, us, rfl, fun hk => by rw [hk] at ht; cases ht⟩
  | @branch _ _ t us _ ht h hm => exact ⟨t, us, rfl, fun hk => by rw [hk] at ht; cases ht⟩

/-- A statement that begins with no `elsif` is read as one. -/
theorem statement {s : Stmt σ} (h : StandsOn context (.stmt s) (t :: ts) after)
    (ht : t.kind ≠ .keyword .elsifWord) : Reads context .statement (t :: ts) after s := by
  cases h with
  | stmt h => exact h
  | branch helsif => exact absurd helsif ht

/-- A block that begins with no `elsif` is read in braces. -/
theorem body {b : Block σ} (h : StandsOn context (.block b) (t :: ts) after)
    (ht : t.kind ≠ .keyword .elsifWord) {construct : Construct}
    (hbraces : construct.closer = .closeBrace) :
    Reads context (.block construct) (t :: ts) after b := by
  cases h with
  | block hbraces' h => exact h.block_of hbraces' hbraces
  | branch helsif => exact absurd helsif ht

end StandsOn

/-! ## exchanges -/

/-- Some of the tokens of the phrase are those of the part; unless they begin with `elsif`,
others on which the part stands may be there for them. -/
def Exchanges (context : Context σ) (m : Subtree σ) (p : Phrase σ) (v : p.Value)
    (ts after : List (Token σ)) : Prop :=
  ∃ gap t us rest, ts = gap ++ t :: (us ++ rest) ∧ StandsOn context m (t :: us) (rest ++ after) ∧
    (t.kind ≠ .keyword .elsifWord → ∀ us', lastPlace (t :: us') = lastPlace (t :: us) →
      StandsOn context m (t :: us') (rest ++ after) →
      Reads context p (gap ++ t :: (us' ++ rest)) after v)

namespace Exchanges

variable {m : Subtree σ} {p p' : Phrase σ} {v : p.Value} {v' : p'.Value}
  {ts whole rest after : List (Token σ)}

/-- The part is all of the phrase. -/
theorem here {t : Token σ} (h : StandsOn context m (t :: ts) after)
    (hreads : t.kind ≠ .keyword .elsifWord → ∀ us, StandsOn context m (t :: us) after →
      Reads context p (t :: us) after v) : Exchanges context m p v (t :: ts) after := by
  refine ⟨[], t, ts, [], by simp, h, fun ht us _ hus => ?_⟩
  exact (hreads ht us hus).of_eq (by simp)

/-- The part is in a phrase with tokens `gap` before it and `gap'` behind. -/
theorem lift (h : Exchanges context m p' v' ts rest) (gap gap' : List (Token σ))
    (hwhole : whole = gap ++ (ts ++ gap')) (hrest : rest = gap' ++ after)
    (hreads : ∀ ts', Swapped ts ts' → Reads context p' ts' rest v' →
      Reads context p (gap ++ (ts' ++ gap')) after v) :
    Exchanges context m p v whole after := by
  subst hrest hwhole
  obtain ⟨gap₁, t, us, rest, rfl, hstands, hexchange⟩ := h
  obtain ⟨u, vs, heq, hnewline⟩ := hstands.exists_cons
  obtain ⟨rfl, rfl⟩ := List.cons.inj heq
  refine ⟨gap ++ gap₁, t, us, rest ++ gap', by simp, by simpa using hstands, ?_⟩
  intro ht us' hlast hus'
  have hread := hexchange ht us' hlast (by simpa using hus')
  exact (hreads _ (.intro gap₁ rest hnewline hlast) hread).of_eq (by simp)

end Exchanges

end CallGrammar
