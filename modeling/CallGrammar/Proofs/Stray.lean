import CallGrammar.Proofs.Trailing
import CallGrammar.Proofs.Walk.Grammar
import Mathlib.Data.List.Basic

/-!
# CallGrammar.Proofs.Stray

A comma where an element should begin: behind another comma, or behind the bracket that opens a
list.  The one place where the grammar asks for something else behind a comma is between the
bars of a lambda (`Barred`).

A reading of a vector with such a comma ends before the token that the comma is stray behind, or
with the error that it is there (`Stray.Ends`).  What is shown of a step is that it keeps the
cursor before that token; and where a step goes past it, what comes next is refused
(`Rejects`).
-/

namespace CallGrammar

variable {σ α β : Type}

/-! ## where an element should begin -/

/-- The tokens end between the bars of a lambda. -/
def Barred (before : List (Token σ)) : Prop :=
  ∃ front bar params, before = front ++ bar :: params ∧ bar.kind = .symbol .pipe ∧
    AllKinds Kind.isParameter params

/-- Behind the tokens `before` and then `t`, an element should begin: `t` is a comma of a list of
expressions, or opens arguments, an array, the keys of an access, or a hash. -/
inductive Introduces (before : List (Token σ)) (t : Token σ) : Prop where
  | comma (ht : t.kind = .symbol .comma) (hbarred : ¬ Barred before)
  | bracket (ht : t.kind = .symbol .openBracket)
  | brace (ht : t.kind = .symbol .openBrace)
  | paren {name : String} (hname : lastKind none before = some (.name name))
      (ht : t.kind = .symbol .openParen)

theorem Barred.bar {before : List (Token σ)} {t : Token σ} (ht : t.kind = .symbol .pipe) :
    Barred (before ++ [t]) :=
  ⟨before, t, [], rfl, ht, .nil⟩

/-- Names and commas of parameters do not get out of the bars. -/
theorem Barred.append {before ts : List (Token σ)} (h : Barred before)
    (hts : AllKinds Kind.isParameter ts) : Barred (before ++ ts) := by
  obtain ⟨front, bar, params, rfl, hbar, hparams⟩ := h
  exact ⟨front, bar, params ++ ts, by simp, hbar, hparams.append hts⟩

/-- What stands last, if anything does. -/
theorem lastKind_none (ts : List (Token σ)) : lastKind none ts = (ts.map (·.kind)).getLast? := by
  obtain rfl | ⟨front, u, rfl⟩ := ts.eq_nil_or_concat'
  · rfl
  · simp [lastKind_append, lastKind]

/-- The kinds alone tell whether the tokens end between bars. -/
theorem Barred.of_kinds {before before' : List (Token σ)} (h : Barred before)
    (hkinds : before'.map (·.kind) = before.map (·.kind)) : Barred before' := by
  obtain ⟨front, bar, params, rfl, hbar, hparams⟩ := h
  rw [List.map_append, List.map_cons] at hkinds
  obtain ⟨front', inner, rfl, -, hinner⟩ := List.map_eq_append_iff.1 hkinds
  obtain ⟨bar', params', rfl, hbar', hparams'⟩ := List.map_eq_cons_iff.1 hinner
  refine ⟨front', bar', params', rfl, hbar'.trans hbar, fun t ht => ?_⟩
  have hmem : t.kind ∈ params.map (·.kind) := hparams' ▸ List.mem_map_of_mem ht
  obtain ⟨u, hu, hkind⟩ := List.mem_map.1 hmem
  rw [← hkind]
  exact hparams u hu

/-- What a token introduces depends on kinds only. -/
theorem Introduces.of_kinds {before before' : List (Token σ)} {t t' : Token σ}
    (h : Introduces before t) (hkinds : before'.map (·.kind) = before.map (·.kind))
    (hkind : t'.kind = t.kind) : Introduces before' t' := by
  cases h with
  | comma ht hbarred =>
    exact .comma (hkind.trans ht) fun hbarred' => hbarred (hbarred'.of_kinds hkinds.symm)
  | bracket ht => exact .bracket (hkind.trans ht)
  | brace ht => exact .brace (hkind.trans ht)
  | paren hname ht =>
    rw [lastKind_none, ← hkinds, ← lastKind_none] at hname
    exact .paren hname (hkind.trans ht)

/-- A vector with a comma where an element should begin: the tokens before the marker, the marker,
and what is behind it. -/
structure Stray (σ : Type) where
  context : Context σ
  before : List (Token σ)
  marker : Token σ
  behind : List (Token σ)
  comma : Token σ
  comma_kind : comma.kind = .symbol .comma
  leads : Leads comma marker.kind behind
  unbarred : marker.kind = .symbol .comma → ¬ Barred before

/-- A comma behind a token that introduces an element is stray. -/
theorem Introduces.exists_stray {before : List (Token σ)} {t comma : Token σ}
    (h : Introduces before t) (context : Context σ) (hcomma : comma.kind = .symbol .comma)
    (tail : List (Token σ)) :
    ∃ w : Stray σ, w.context = context ∧ w.comma = comma ∧
      before ++ t :: comma :: tail = w.before ++ w.marker :: w.behind ∧
      tail.length < w.behind.length := by
  -- all but the parenthesis of a call are themselves the marker
  have hself {s : Symbol} (ht : t.kind = .symbol s)
      (hs : s = .comma ∨ s = .openBracket ∨ s = .openBrace)
      (hbarred : s = .comma → ¬ Barred before) : ∃ w : Stray σ, w.context = context ∧
        w.comma = comma ∧ before ++ t :: comma :: tail = w.before ++ w.marker :: w.behind ∧
        tail.length < w.behind.length :=
    ⟨{ context, before, marker := t, behind := comma :: tail, comma, comma_kind := hcomma
       leads := ht ▸ .symbol hs tail
       unbarred := fun hkind => hbarred (Kind.symbol.inj (ht.symm.trans hkind)) },
      rfl, rfl, rfl, Nat.lt_succ_self _⟩
  cases h with
  | comma ht hbarred => exact hself ht (.inl rfl) fun _ => hbarred
  | bracket ht => exact hself ht (.inr (.inl rfl)) nofun
  | brace ht => exact hself ht (.inr (.inr rfl)) nofun
  | @paren name hname ht =>
    obtain rfl | ⟨front, u, rfl⟩ := before.eq_nil_or_concat'
    · cases hname
    · have hu : u.kind = .name name := by
        rw [lastKind_append] at hname
        exact Option.some.inj hname
      exact ⟨{ context, before := front, marker := u, behind := t :: comma :: tail, comma
               comma_kind := hcomma
               leads := hu ▸ .name name ht tail
               unbarred := fun hkind => by rw [hu] at hkind; cases hkind },
        rfl, rfl, by simp, Nat.lt_succ_of_lt (Nat.lt_succ_self _)⟩

namespace Stray

variable (w : Stray σ) {c : Cursor σ} {kind : Kind} {view : View}

/-! ## positions -/

/-- The cursor is not past the marker. -/
def Before (c : Cursor σ) : Prop :=
  ∃ us, c.passed.reverse ++ us = w.before ∧ c.ahead = us ++ w.marker :: w.behind

/-- The cursor is not past the marker, and between the bars of a lambda if the reading is. -/
def Stands (view : View) (c : Cursor σ) : Prop :=
  w.Before c ∧ (view = .bars → Barred c.passed.reverse)

variable {w}

/-- One token on, the cursor is not past the marker, or it has just passed it. -/
theorem Before.next (h : w.Before c) (hk : c.kind? = some kind) :
    w.Before c.next ∨
      w.marker.kind = kind ∧ c.passed.reverse = w.before ∧ c.next.ahead = w.behind := by
  obtain ⟨passed, ahead⟩ := c
  obtain ⟨us, hpassed, rfl⟩ := h
  cases us with
  | nil => exact .inr ⟨Option.some.inj hk, by simpa using hpassed, rfl⟩
  | cons t us => exact .inl ⟨us, by simpa [Cursor.next] using hpassed, rfl⟩

/-- A step over a token that no stray comma is behind stays before it. -/
theorem Before.next_of_kind (h : w.Before c) (hk : c.kind? = some kind)
    (hkind : kind.isMarker = false) : w.Before c.next := by
  obtain hnext | ⟨hmarker, -⟩ := h.next hk
  · exact hnext
  · have hpast := w.leads.isMarker
    rw [hmarker, hkind] at hpast
    cases hpast

/-- So does skipping such tokens. -/
theorem Before.skip {p : Kind → Bool} (hp : ∀ kind, p kind = true → kind.isMarker = false)
    (h : w.Before c) : w.Before (c.skip p) := by
  obtain ⟨passed, ahead⟩ := c
  obtain ⟨us, hpassed, rfl⟩ := h
  have hmarker : p w.marker.kind = false := by
    rw [← Bool.not_eq_true]
    intro hskip
    have hpast := w.leads.isMarker
    rw [hp _ hskip] at hpast
    cases hpast
  induction us generalizing passed with
  | nil =>
    rw [List.nil_append, Cursor.skip_cons_of_neg hmarker]
    exact ⟨[], hpassed, rfl⟩
  | cons t us ih =>
    rw [List.cons_append]
    cases ht : p t.kind with
    | false =>
      rw [Cursor.skip_cons_of_neg ht]
      exact ⟨t :: us, hpassed, rfl⟩
    | true =>
      rw [Cursor.skip_cons_of_pos ht]
      exact ih (t :: passed) (by simpa using hpassed)

theorem Before.skipNewlines (h : w.Before c) : w.Before c.skipNewlines :=
  h.skip fun kind hkind => by rw [eq_of_beq hkind]; rfl

theorem Before.skipSeparators (h : w.Before c) : w.Before c.skipSeparators := by
  refine h.skip fun kind hkind => ?_
  obtain hkind | hkind := Bool.or_eq_true_iff.1 hkind <;> rw [eq_of_beq hkind] <;> rfl

/-- Before the token, a reading may have looked at what is under the cursor. -/
theorem Before.stands (h : w.Before c) (hview : view ≠ .bars) : w.Stands view c :=
  ⟨h, fun hbars => absurd hbars hview⟩

/-- Behind a bar the cursor is between the bars. -/
theorem Before.stands_next (h : w.Before c) (hk : c.kind? = some (.symbol .pipe)) :
    w.Stands .bars c.next := by
  refine ⟨h.next_of_kind hk rfl, fun _ => ?_⟩
  obtain ⟨passed, ahead⟩ := c
  cases ahead with
  | nil => cases hk
  | cons t ts =>
    rw [Cursor.next, List.reverse_cons]
    exact .bar (Option.some.inj hk)

theorem Stands.skipNewlines (h : w.Stands view c) : w.Stands view c.skipNewlines := by
  refine ⟨h.1.skipNewlines, fun hview => ?_⟩
  obtain ⟨nl, hpasses, hnl, -⟩ := c.passes_skipNewlines
  rw [hpasses.2, List.reverse_append, List.reverse_reverse]
  refine (h.2 hview).append fun t ht => ?_
  rw [eq_of_beq (hnl t ht)]
  rfl

/-- Between the bars no comma is the marker. -/
theorem Stands.next (h : w.Stands .bars c) (hk : c.kind? = some kind)
    (hkind : kind.isParameter = true) : w.Stands .bars c.next := by
  refine ⟨?_, fun hview => ?_⟩
  · obtain hnext | ⟨hmarker, hpassed, -⟩ := h.1.next hk
    · exact hnext
    · have hpast := w.leads.isMarker
      rw [hmarker] at hpast
      obtain rfl : kind = .symbol .comma := by
        cases kind with
        | symbol s => cases s <;> first | rfl | cases hkind
        | var name => cases hpast
        | newline => cases hpast
        | _ => cases hkind
      exact absurd (hpassed ▸ h.2 rfl) (w.unbarred hmarker)
  · obtain ⟨passed, ahead⟩ := c
    cases ahead with
    | nil => cases hk
    | cons t ts =>
      rw [Cursor.next, List.reverse_cons]
      have ht : t.kind = kind := Option.some.inj hk
      refine (h.2 hview).append fun u hu => ?_
      rw [List.mem_singleton.1 hu, ht, hkind]

/-! ## outcomes -/

variable (w)

/-- The reading ends before the marker, or it stops at the stray comma. -/
inductive Ends : Outcome σ α → Prop where
  | done (v : α) {c : Cursor σ} (h : w.Before c) : Ends (.done v c)
  | failed (e : ParseError σ) {c : Cursor σ} (h : w.Before c) : Ends (.failed e c)
  | stops {o : Outcome σ α} (h : StopsAt w.comma.span o) : Ends o

/-- From a cursor before the marker the reading ends before it too, or stops at the stray comma.
It has looked up to `view` and seen a token of the kind `known` there, if one is given. -/
def Keeps (known : Option Kind) (view : View) (p : Parse σ α) : Prop :=
  ∀ c, w.Stands view c → (∀ kind ∈ known, (view.look c).kind? = some kind) →
    w.Ends (p.run w.context c)

/-! ## steps -/

variable {w} {known : Option Kind} {view' : View} {p : Parse σ α} {q : α → Parse σ β}

/-- One reading after the other keeps the cursor before the token if both do. -/
theorem bind (hp : w.Keeps known view p) (hview : view' ≠ .bars)
    (hq : ∀ v, w.Keeps none view' (q v)) : w.Keeps known view (p >>= q) := by
  intro c hc hk
  have hends := hp c hc hk
  cases hrun : p.run w.context c with
  | done v c' =>
    rw [hrun] at hends
    rw [Parse.run_bind, hrun]
    cases hends with
    | done _ hc' => exact hq v c' (hc'.stands hview) nofun
    | stops h => cases h
  | failed e c' =>
    rw [hrun] at hends
    cases hends with
    | failed _ hc' =>
      rw [Parse.run_bind, hrun]
      exact .failed e hc'
    | stops h => exact .stops (StopsAt.bind (hrun ▸ h) q)
  | exhausted =>
    rw [Parse.run_bind, hrun]
    exact .stops .exhausted

theorem pure (v : α) : w.Keeps known view (Pure.pure v) := fun _ hc _ => .done v hc.1

theorem fail (e : ParseError σ) : w.Keeps known view (Parse.fail e : Parse σ α) :=
  fun _ hc _ => .failed e hc.1

theorem exhausted : w.Keeps known view (Parse.exhausted : Parse σ α) :=
  fun _ _ _ => .stops .exhausted

theorem unexpected (e : Expectation) : w.Keeps known view (Parse.unexpected e : Parse σ α) := by
  intro c hc _
  rw [Parse.run_unexpected]
  exact .failed _ hc.1

/-- Before the marker there is a token under the cursor. -/
theorem peek {q : Option Kind → Parse σ α} (hview : view.isNear = true)
    (hq : ∀ k, w.Keeps k view (q k)) : w.Keeps known view (Parse.peek >>= q) := by
  intro c hc _
  refine hq c.kind? c hc fun k hk => ?_
  rw [View.look_of_isNear hview]
  exact hk

/-- A second look past line breaks, for a reading that has seen the first token there. -/
theorem peekAgain {q : Option Kind → Parse σ α}
    (hhere : ∀ k, k ≠ .newline → w.Keeps (some k) .token (q (some k)))
    (hpast : ∀ k, (∀ k' ∈ k, k' = .newline) → w.Keeps none .line (q k)) :
    w.Keeps known .line (Parse.peek >>= q) := by
  intro c hc _
  rw [Parse.run_peek_bind]
  obtain hnewline | ⟨k, hne, hk⟩ := c.kind?_newline_or
  · exact hpast c.kind? hnewline c hc nofun
  · rw [hk]
    exact hhere k hne c (hc.1.stands nofun) fun _ hk' => hk.trans hk'

theorem peekPastNewlines {q : Option Kind → Parse σ α} (hq : ∀ k, w.Keeps k .line (q k)) :
    w.Keeps known view (Parse.peekPastNewlines >>= q) :=
  fun c hc _ => hq c.skipNewlines.kind? c (hc.1.stands nofun) fun _ hk => hk

theorem place {q : σ → Parse σ α} (hq : ∀ here, w.Keeps known view (q here)) :
    w.Keeps known view (Parse.place >>= q) :=
  fun c hc hk => hq _ c hc hk

theorem since [Location σ] (first : σ) {q : σ → Parse σ α}
    (hq : ∀ whole, w.Keeps known view (q whole)) :
    w.Keeps known view (Parse.since first >>= q) :=
  fun c hc hk => hq _ c hc hk

theorem touching {q : Bool → Parse σ α} (hq : ∀ b, w.Keeps known view (q b)) :
    w.Keeps known view (Parse.touching >>= q) :=
  fun c hc hk => hq _ c hc hk

/-- The check of a statement call reads no token. -/
theorem invoke (name : String) (span : σ) (few : Bool) (v : α) :
    w.Keeps known view (Parse.takesArguments name >>= fun takes =>
      if few || takes then Pure.pure v else Parse.fail (.needsParentheses name span)) := by
  intro c hc hk
  rw [Parse.run_takesArguments_bind]
  split
  · exact pure v c hc hk
  · exact fail (.needsParentheses name span) c hc hk

theorem skipNewlines {q : Unit → Parse σ α} (hq : w.Keeps none view (q ())) :
    w.Keeps known view (Parse.skipNewlines >>= q) :=
  fun c hc _ => hq c.skipNewlines hc.skipNewlines nofun

/-- Past the line breaks stands what was seen behind them. -/
theorem skipLine {q : Unit → Parse σ α} (hq : w.Keeps known .token (q ())) :
    w.Keeps known .line (Parse.skipNewlines >>= q) :=
  fun c hc hk => hq c.skipNewlines (hc.1.skipNewlines.stands nofun) hk

theorem skipSeparators {q : Unit → Parse σ α} (hq : w.Keeps none .token (q ())) :
    w.Keeps known view (Parse.skipSeparators >>= q) :=
  fun c hc _ => hq c.skipSeparators (hc.1.skipSeparators.stands nofun) nofun

/-- A step that may go past the marker: what comes next is refused behind it. -/
theorem advance {q : Unit → Parse σ α} (hrejects : Rejects kind (q ()))
    (hq : w.Keeps none .token (q ())) : w.Keeps (some kind) .token (Parse.advance >>= q) := by
  intro c hc hk
  rw [Parse.run_advance_bind]
  obtain hnext | ⟨hmarker, -, hbehind⟩ := hc.1.next (hk kind rfl)
  · exact hq c.next (hnext.stands nofun) nofun
  · have hleads : Leads w.comma kind c.next.ahead := hmarker ▸ hbehind ▸ w.leads
    exact .stops (hrejects w.context c.next w.comma w.comma_kind hleads)

/-! ## the grammar -/

variable [Location σ] {n floor depth : Nat} {sight : View} {g : α → β} {r : Parse σ β}

/-- What takes the steps of the grammar is not read past the comma, if the phrases in it are
not. -/
theorem of_walk
    (ih : ∀ (p : Phrase σ) {known : Option Kind} {view : View}, p.Enters view known →
      w.Keeps known view (p.parse n))
    (hwalk : Walk id n n floor sight g known depth view p r) : w.Keeps known view p := by
  induction hwalk with
  | pure v => exact pure v
  | fail e => exact fail e
  | unexpected expected => exact unexpected expected
  | peek hview _ _ _ hq => exact peek hview hq
  | peekAgain _ _ hhere hpast => exact peekAgain hhere hpast
  | peekPastNewlines _ hq => exact peekPastNewlines hq
  | touching _ _ hq => exact touching fun b => hq b b fun _ => rfl
  | place _ hq => exact place hq
  | since first _ hq => exact since first hq
  | invoke name span few v => exact invoke name span few v
  | skipLine _ hq => exact skipLine hq
  | skipNewlines _ _ hq => exact skipNewlines hq
  | skipSeparators _ hq => exact skipSeparators hq
  | advance _ _ hrejects _ hq | opener _ hrejects _ hq => exact advance hrejects hq
  | closer hk _ hq =>
    exact advance (rejects_of_isMarker (Kind.valid_of_closesGroup hk).2 _) hq
  | bar _ hq =>
    exact fun c hc hk => hq c.next (hc.1.stands_next (hk _ rfl)) nofun
  | parameter hk _ hq => exact fun c hc hkind => hq c.next (hc.next (hkind _ rfl) hk) nofun
  | phrase p henters _ hq => exact bind (ih p henters) p.sight_ne_bars hq

/-- **Stray commas**: no phrase is read past one. -/
theorem keeps (w : Stray σ) (n : Nat) (p : Phrase σ) (henters : p.Enters view known) :
    w.Keeps known view (p.parse n) := by
  induction n generalizing p known view with
  | zero =>
    rw [p.parse_zero]
    exact exhausted
  | succ n ih =>
    exact of_walk (fun p _ _ => ih p) (p.walks (f := id) (fun _ _ => rfl) n n 0 henters)

end Stray

end CallGrammar
