import CallGrammar.Proofs.Walk.Grammar

/-!
# CallGrammar.Proofs.Twin

Two readings of vectors that have the same tokens up to a closing bracket, which is a
parenthesis in the one and a square bracket in the other, at the same place.  With `depth`
groups open, what is left before that bracket closes just these (`Twin.At`); so a phrase
that closes what it opens cannot get past it, and where a phrase sees it, it sees a token
with which nothing begins and nothing goes on.

An error says what was asked for and what was found, and there the two readings may differ:
what they agree on is its class and its place.
-/

namespace CallGrammar

variable {σ α β : Type}

/-- Two vectors that are alike up to a closing bracket. -/
structure Twin (σ : Type) where
  first : Context σ
  second : Context σ
  calls : second.calls = first.calls
  paren : Token σ
  bracket : Token σ
  paren_kind : paren.kind = .symbol .closeParen
  bracket_kind : bracket.kind = .symbol .closeBracket
  span : bracket.span = paren.span
  here : List (Token σ)
  there : List (Token σ)

namespace Twin

variable (w : Twin σ)

/-! ## positions -/

/-- The same position in both vectors, with `depth` groups open that are closed before the
bracket. -/
def At (depth : Nat) (c d : Cursor σ) : Prop :=
  ∃ us, c.ahead = us ++ w.paren :: w.here ∧ d.ahead = us ++ w.bracket :: w.there ∧
    (d.passed.head?).map (·.span) = (c.passed.head?).map (·.span) ∧ Closes depth us

variable {w} {depth depth' depth'' : Nat} {c d : Cursor σ}

/-- The same place, though one ends in a parenthesis and the other in a bracket. -/
theorem At.place (h : w.At depth c d) (finish finish' : σ) :
    d.place finish' = c.place finish := by
  obtain ⟨us, hc, hd, -, -⟩ := h
  rw [Cursor.place, Cursor.place, hc, hd]
  cases us with
  | nil => exact w.span
  | cons t us => rfl

/-- The same run of tokens back to where a phrase began. -/
theorem At.since [Location σ] (h : w.At depth c d) (first : σ) : d.since first = c.since first := by
  obtain ⟨us, -, -, hpassed, -⟩ := h
  obtain ⟨passed, ahead⟩ := c
  obtain ⟨passed', ahead'⟩ := d
  cases passed with
  | nil =>
    cases passed' with
    | nil => rfl
    | cons t' passed' => cases hpassed
  | cons t passed =>
    cases passed' with
    | nil => cases hpassed
    | cons t' passed' =>
      have hspan : t'.span = t.span := Option.some.inj hpassed
      exact congrArg (Location.merge first) hspan

/-- Under the cursors is the same token, or no group is open and the brackets are there. -/
theorem At.kind? (h : w.At depth c d) :
    (∃ k, c.kind? = some k ∧ d.kind? = some k ∧ (depth = 0 → k.closesGroup = false)) ∨
      depth = 0 ∧ c.kind? = some (.symbol .closeParen) ∧
        d.kind? = some (.symbol .closeBracket) := by
  obtain ⟨us, hc, hd, -, hus⟩ := h
  rw [Cursor.kind?, Cursor.kind?, hc, hd]
  cases us with
  | nil =>
    cases hus
    exact .inr ⟨rfl, congrArg some w.paren_kind, congrArg some w.bracket_kind⟩
  | cons t us =>
    refine .inl ⟨t.kind, rfl, rfl, ?_⟩
    rintro rfl
    exact hus.closesGroup_head

/-- Where the same kind is under both cursors, it is a token that both vectors have. -/
theorem At.exists_cons {k : Kind} (h : w.At depth c d) (hc : c.kind? = some k)
    (hd : d.kind? = some k) :
    ∃ t us, t.kind = k ∧ c.ahead = t :: (us ++ w.paren :: w.here) ∧
      d.ahead = t :: (us ++ w.bracket :: w.there) ∧ Closes depth (t :: us) := by
  obtain ⟨us, hc', hd', -, hus⟩ := h
  cases us with
  | nil =>
    rw [Cursor.kind?, hc'] at hc
    rw [Cursor.kind?, hd'] at hd
    have hparen : w.paren.kind = k := Option.some.inj hc
    have hbracket : w.bracket.kind = k := Option.some.inj hd
    rw [w.paren_kind] at hparen
    rw [w.bracket_kind, ← hparen] at hbracket
    cases hbracket
  | cons t us =>
    rw [Cursor.kind?, hc'] at hc
    exact ⟨t, us, Option.some.inj hc, hc', hd', hus⟩

/-- One token on, `depth'` groups are open. -/
theorem At.next {k : Kind} (h : w.At depth c d) (hc : c.kind? = some k) (hd : d.kind? = some k)
    (hstep : ∀ (t : Token σ) (us : List (Token σ)), t.kind = k → Closes depth (t :: us) →
      Closes depth' us) : w.At depth' c.next d.next := by
  obtain ⟨t, us, ht, hc, hd, hus⟩ := h.exists_cons hc hd
  obtain ⟨passed, ahead⟩ := c
  obtain ⟨passed', ahead'⟩ := d
  obtain rfl : ahead = _ := hc
  obtain rfl : ahead' = _ := hd
  exact ⟨us, rfl, rfl, rfl, hstep t us ht hus⟩

/-- The same tokens are skipped in both, and neither gets to the closer. -/
theorem At.skip {p : Kind → Bool} (hp : ∀ k, p k = true → k.isInner = true)
    (h : w.At depth c d) : w.At depth (c.skip p) (d.skip p) := by
  obtain ⟨passed, ahead⟩ := c
  obtain ⟨passed', ahead'⟩ := d
  obtain ⟨us, rfl, rfl, hpassed, hus⟩ := h
  have hstop {k : Kind} (hk : k.isInner = false) : p k = false := by
    rw [← Bool.not_eq_true]
    intro hskip
    rw [hp k hskip] at hk
    cases hk
  induction us generalizing passed passed' with
  | nil =>
    rw [List.nil_append, List.nil_append,
      Cursor.skip_cons_of_neg (hstop (by rw [w.paren_kind]; rfl)),
      Cursor.skip_cons_of_neg (hstop (by rw [w.bracket_kind]; rfl))]
    exact ⟨[], rfl, rfl, hpassed, hus⟩
  | cons t us ih =>
    rw [List.cons_append, List.cons_append]
    cases ht : p t.kind with
    | false =>
      rw [Cursor.skip_cons_of_neg ht, Cursor.skip_cons_of_neg ht]
      exact ⟨t :: us, rfl, rfl, hpassed, hus⟩
    | true =>
      rw [Cursor.skip_cons_of_pos ht, Cursor.skip_cons_of_pos ht]
      exact ih (t :: passed) (t :: passed') rfl (hus.tail (hp _ ht))

theorem At.skipNewlines (h : w.At depth c d) : w.At depth c.skipNewlines d.skipNewlines :=
  h.skip fun k hk => by rw [eq_of_beq hk]; rfl

/-! ## outcomes -/

variable (w)

/-- Both readings end alike: with one value, at the same position with `depth` groups open,
or with errors of one class for one place. -/
inductive Agree (depth : Nat) : Outcome σ α → Outcome σ α → Prop where
  | done {v : α} {c d : Cursor σ} (h : w.At depth c d) : Agree depth (.done v c) (.done v d)
  | failed {e e' : ParseError σ} {c d : Cursor σ} (hcategory : e'.category = e.category)
      (hspan : e'.span = e.span) : Agree depth (.failed e c) (.failed e' d)
  | exhausted : Agree depth .exhausted .exhausted

/-- From the same position with `depth` groups open, both readings end alike, with `depth'` groups
open.  Both have looked up to `view` and seen a token of the kind `known` there, if one is given. -/
def Even (known : Option Kind) (view : View) (depth depth' : Nat) (p q : Parse σ α) : Prop :=
  ∀ c d, w.At depth c d →
    (∀ k ∈ known, (view.look c).kind? = some k ∧ (view.look d).kind? = some k) →
      w.Agree depth' (p.run w.first c) (q.run w.second d)

/-! ## steps -/

variable {w} {known : Option Kind} {view view' : View} {kind : Kind} {p p' : Parse σ α}
  {q q' : α → Parse σ β}

/-- How far was looked says nothing where nothing was seen. -/
theorem Even.unseen (h : w.Even none view depth depth' p p') :
    w.Even none view' depth depth' p p' :=
  fun c d hcd _ => h c d hcd nofun

/-- One pair of readings after the other. -/
theorem bind (hp : w.Even known view depth depth' p p')
    (hq : ∀ v, w.Even none .token depth' depth'' (q v) (q' v)) :
    w.Even known view depth depth'' (p >>= q) (p' >>= q') := by
  intro c d hcd hk
  rw [Parse.run_bind, Parse.run_bind]
  have hpp := hp c d hcd hk
  generalize p.run w.first c = o, p'.run w.second d = o' at hpp ⊢
  cases hpp with
  | @done v c' d' hcd' => exact hq v c' d' hcd' nofun
  | failed hcategory hspan => exact .failed hcategory hspan
  | exhausted => exact .exhausted

theorem pure (v : α) : w.Even known view depth depth (Pure.pure v) (Pure.pure v) :=
  fun _ _ hcd _ => .done hcd

theorem fail (e : ParseError σ) :
    w.Even known view depth depth' (Parse.fail e : Parse σ α) (Parse.fail e) :=
  fun _ _ _ _ => .failed rfl rfl

theorem exhausted : w.Even known view depth depth' (Parse.exhausted : Parse σ α) Parse.exhausted :=
  fun _ _ _ _ => .exhausted

/-- Whatever each reading asks for, it is told of the same place. -/
theorem unexpected (e e' : Expectation) :
    w.Even known view depth depth' (Parse.unexpected e : Parse σ α) (Parse.unexpected e') := by
  intro c d hcd _
  rw [Parse.run_unexpected, Parse.run_unexpected]
  exact .failed rfl (hcd.place _ _)

theorem strayComma :
    w.Even known view depth depth' (Parse.strayComma : Parse σ α) Parse.strayComma := by
  intro c d hcd _
  rw [Parse.run_strayComma, Parse.run_strayComma]
  exact .failed rfl (hcd.place _ _)

/-- A look at the token under the cursor: it is one that both vectors have, or the brackets
are there. -/
theorem peek {q q' : Option Kind → Parse σ α} (hview : view.isNear = true)
    (hsame : ∀ k, (depth = 0 → ∀ kind ∈ k, kind.closesGroup = false) →
      w.Even k view depth depth' (q k) (q' k))
    (hend : depth = 0 → w.Even none view depth depth' (q (some (.symbol .closeParen)))
      (q' (some (.symbol .closeBracket)))) :
    w.Even known view depth depth' (Parse.peek >>= q) (Parse.peek >>= q') := by
  intro c d hcd _
  rw [Parse.run_peek_bind, Parse.run_peek_bind]
  obtain ⟨kind, hc, hd, hopen⟩ | ⟨hdepth, hc, hd⟩ := hcd.kind?
  · rw [hc, hd]
    refine hsame (some kind) (fun hdepth k' hk' => ?_) c d hcd fun k' hk' => ?_
    · cases hk'
      exact hopen hdepth
    · cases hk'
      rw [View.look_of_isNear hview, View.look_of_isNear hview]
      exact ⟨hc, hd⟩
  · rw [hc, hd]
    exact hend hdepth c d hcd nofun

/-- Inside a group the brackets cannot be seen. -/
theorem At.exists_kind (h : w.At (depth + 1) c d) :
    ∃ kind, c.kind? = some kind ∧ d.kind? = some kind := by
  obtain ⟨kind, hc, hd, -⟩ | ⟨hdepth, -, -⟩ := h.kind?
  · exact ⟨kind, hc, hd⟩
  · cases hdepth

/-- A second look past line breaks sees the same kind in both. -/
theorem peekAgain {q q' : Option Kind → Parse σ α}
    (hhere : ∀ k, k ≠ .newline →
      w.Even (some k) .token (depth + 1) depth' (q (some k)) (q' (some k)))
    (hpast : ∀ k, (∀ k' ∈ k, k' = .newline) → w.Even none .line (depth + 1) depth' (q k) (q' k)) :
    w.Even known .line (depth + 1) depth' (Parse.peek >>= q) (Parse.peek >>= q') := by
  intro c d hcd _
  obtain ⟨kind, hc, hd⟩ := hcd.exists_kind
  rw [Parse.run_peek_bind, Parse.run_peek_bind, hc, hd]
  by_cases hkind : kind = .newline
  · exact hpast (some kind) (fun _ hk' => (Option.some.inj hk').symm.trans hkind) c d hcd nofun
  · exact hhere kind hkind c d hcd fun _ hk' => ⟨hc.trans hk', hd.trans hk'⟩

/-- Inside a group, a look past line breaks sees a token that both vectors have. -/
theorem peekPastNewlines {q q' : Option Kind → Parse σ α}
    (hq : ∀ k, w.Even k .line (depth + 1) depth' (q k) (q' k)) :
    w.Even known view (depth + 1) depth' (Parse.peekPastNewlines >>= q)
      (Parse.peekPastNewlines >>= q') := by
  intro c d hcd _
  obtain ⟨kind, hc, hd⟩ := hcd.skipNewlines.exists_kind
  rw [Parse.run_peekPastNewlines_bind, Parse.run_peekPastNewlines_bind, hc, hd]
  exact hq (some kind) c d hcd fun _ hk' => ⟨hc.trans hk', hd.trans hk'⟩

theorem place {q q' : σ → Parse σ α}
    (hq : ∀ here, w.Even known view depth depth' (q here) (q' here)) :
    w.Even known view depth depth' (Parse.place >>= q) (Parse.place >>= q') := by
  intro c d hcd hk
  rw [Parse.run_place_bind, Parse.run_place_bind, hcd.place w.first.finish]
  exact hq _ c d hcd hk

theorem since [Location σ] (first : σ) {q q' : σ → Parse σ α}
    (hq : ∀ whole, w.Even known view depth depth' (q whole) (q' whole)) :
    w.Even known view depth depth' (Parse.since first >>= q) (Parse.since first >>= q') := by
  intro c d hcd hk
  rw [Parse.run_since_bind, Parse.run_since_bind, hcd.since]
  exact hq _ c d hcd hk

/-- A token that both vectors have touches the one before it in both or in neither. -/
theorem touching {q q' : Bool → Parse σ α} (hknown : depth = 0 → known.isSome = true)
    (hq : ∀ b, w.Even known .token depth depth' (q b) (q' b)) :
    w.Even known .token depth depth' (Parse.touching >>= q) (Parse.touching >>= q') := by
  intro c d hcd hkind
  obtain ⟨kind, hc, hd⟩ : ∃ kind, c.kind? = some kind ∧ d.kind? = some kind := by
    cases depth with
    | zero =>
      obtain ⟨kind, rfl⟩ := Option.isSome_iff_exists.1 (hknown rfl)
      exact ⟨kind, hkind kind rfl⟩
    | succ depth => exact hcd.exists_kind
  obtain ⟨t, us, -, hc', hd', -⟩ := hcd.exists_cons hc hd
  have htouching : d.touching = c.touching := by
    rw [Cursor.touching, Cursor.touching, hc', hd']
    rfl
  rw [Parse.run_touching_bind, Parse.run_touching_bind, htouching]
  exact hq _ c d hcd hkind

theorem invoke (name : String) (span : σ) (few : Bool) (v : α) :
    w.Even known view depth depth
      (Parse.takesArguments name >>= fun takes =>
        if few || takes then Pure.pure v else Parse.fail (.needsParentheses name span))
      (Parse.takesArguments name >>= fun takes =>
        if few || takes then Pure.pure v else Parse.fail (.needsParentheses name span)) := by
  intro c d hcd hk
  rw [Parse.run_takesArguments_bind, Parse.run_takesArguments_bind, w.calls]
  split
  · exact pure v c d hcd hk
  · exact fail (.needsParentheses name span) c d hcd hk

theorem skipNewlines : w.Even known view depth depth Parse.skipNewlines Parse.skipNewlines :=
  fun _ _ hcd _ => .done hcd.skipNewlines

/-- Past the line breaks stands what was seen behind them. -/
theorem skipLine {q q' : Unit → Parse σ α} (hq : w.Even known .token depth depth' (q ()) (q' ())) :
    w.Even known .line depth depth' (Parse.skipNewlines >>= q) (Parse.skipNewlines >>= q') := by
  intro c d hcd hk
  rw [Parse.run_skipNewlines_bind, Parse.run_skipNewlines_bind]
  exact hq c.skipNewlines d.skipNewlines hcd.skipNewlines hk

theorem skipSeparators :
    w.Even known view depth depth Parse.skipSeparators Parse.skipSeparators := by
  refine fun _ _ hcd _ => .done (hcd.skip fun k hk => ?_)
  obtain hk | hk := Bool.or_eq_true_iff.1 hk <;> rw [eq_of_beq hk] <;> rfl

/-- Past a token of a known kind, `depth'` groups are open. -/
theorem advance_of (hview : view.isNear = true)
    (hstep : ∀ (t : Token σ) (us : List (Token σ)), t.kind = kind → Closes depth (t :: us) →
      Closes depth' us) :
    w.Even (some kind) view depth depth' Parse.advance Parse.advance := by
  intro c d hcd hk
  obtain ⟨hc, hd⟩ := hk kind rfl
  rw [View.look_of_isNear hview] at hc hd
  exact .done (hcd.next hc hd hstep)

/-- The same token is passed in both. -/
theorem advance (hview : view.isNear = true) (hkind : kind.isInner = true) :
    w.Even (some kind) view depth depth Parse.advance Parse.advance :=
  advance_of hview fun _ _ ht hus => hus.tail (ht ▸ hkind)

/-! ## the grammar -/

variable [Location σ] {n floor : Nat} {sight : View} {g : α → β} {r : Parse σ β}

/-- What takes the steps of the grammar is read alike, if the phrases in it are. -/
theorem of_walk
    (ih : ∀ (p : Phrase σ) (depth : Nat) {known : Option Kind} {view : View},
      p.Enters view known →
        w.Even known view (depth + p.groups) (depth + p.groups) (p.parse n) (p.parse n))
    (hwalk : Walk id n n floor sight g known depth view p r) :
    w.Even known view depth floor p p := by
  induction hwalk with
  | pure v => exact pure v
  | fail e => exact fail e
  | unexpected expected => exact unexpected expected expected
  | peek hview _ hclosers _ hq hend =>
    refine peek hview (fun k _ => hq k) fun hdepth => ?_
    rw [hclosers hdepth]
    exact hend hdepth
  | peekAgain _ _ hhere hpast => exact peekAgain hhere hpast
  | peekPastNewlines _ hq => exact peekPastNewlines hq
  | touching hknown _ hq => exact touching hknown fun b => hq b b fun _ => rfl
  | place _ hq => exact place hq
  | since first _ hq => exact since first hq
  | invoke name span few v => exact invoke name span few v
  | skipLine _ hq => exact skipLine hq
  | skipNewlines _ _ hq => exact bind skipNewlines fun _ => hq.unseen
  | skipSeparators _ hq => exact bind skipSeparators fun _ => hq
  | advance hk _ _ _ hq => exact bind (advance rfl hk) fun _ => hq
  | opener hk _ _ hq =>
    exact bind (advance_of rfl fun _ _ ht hus => hus.tail_opener (ht ▸ hk)) fun _ => hq
  | closer hk _ hq =>
    exact bind (advance_of rfl fun _ _ ht hus => hus.tail_closer (ht ▸ hk)) fun _ => hq
  | bar _ hq => exact bind (advance rfl rfl) fun _ => hq.unseen
  | parameter hk _ hq =>
    have hinner := Kind.isInner_of_isFlat (Kind.isFlat_of_isParameter hk)
    exact bind (advance rfl hinner) fun _ => hq.unseen
  | phrase p henters _ hq => exact bind (ih p _ henters) fun v => (hq v).unseen

/-- **Twin**: whatever bracket comes next, every phrase is read alike before it. -/
theorem even (w : Twin σ) (n : Nat) (p : Phrase σ) (depth : Nat) (henters : p.Enters view known) :
    w.Even known view (depth + p.groups) (depth + p.groups) (p.parse n) (p.parse n) := by
  induction n generalizing p depth known view with
  | zero =>
    rw [p.parse_zero]
    exact exhausted
  | succ n ih =>
    exact of_walk (fun p depth _ _ => ih p depth)
      (p.walks (f := id) (fun _ _ => rfl) n n depth henters)

end Twin

end CallGrammar
