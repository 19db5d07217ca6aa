import CallGrammar.Grammar.Fuel
import CallGrammar.Proofs.Walk.Grammar

/-!
# CallGrammar.Proofs.Horizon

Two readings of vectors that begin alike.  As long as the cursor stands before the place
from which the vectors differ, a look at the token under it is the same in both, so the
readings go on alike; and once a cursor is past that place it stays there.

The one look that reaches further is the one past line breaks, for another branch of a
conditional.  It may see what differs while the cursor is still before it; but then
only line breaks are left in between, and the statements that follow go past them.  So a
phrase either tracks the other reading up to the token under its cursor, or only up to
the next token that is no line break (`View`).
-/

namespace CallGrammar

variable {σ α β : Type}

/-! ## vectors that begin alike -/

/-- Two vectors that begin alike: what is left of the one and of the other from where they
differ, and the contexts in which they are read. -/
structure Horizon (σ : Type) where
  first : Context σ
  second : Context σ
  calls : second.calls = first.calls
  here : List (Token σ)
  there : List (Token σ)

namespace Horizon

variable (h : Horizon σ)

/-! ## positions -/

/-- The cursor in the first vector is where the vectors may differ. -/
def Past (c : Cursor σ) : Prop := c.ahead.length ≤ h.here.length

/-- The same position in both vectors, with a token that both have. -/
def Near (c d : Cursor σ) : Prop :=
  ∃ ts, ts ≠ [] ∧ c.ahead = ts ++ h.here ∧ d.ahead = ts ++ h.there ∧ d.passed = c.passed

variable {h} {c d : Cursor σ} {view sight : View}

/-- A cursor past the horizon stays there. -/
theorem Past.next (hc : h.Past c) : h.Past c.next :=
  Nat.le_trans c.length_next_le hc

theorem Past.skip (p : Kind → Bool) (hc : h.Past c) : h.Past (c.skip p) :=
  Nat.le_trans (c.length_skip_le p) hc

theorem Past.look (hc : h.Past c) : h.Past (view.look c) := by
  cases view with
  | bars | token => exact hc
  | line => exact hc.skip _

/-- Past what one look saw is past what a further one sees. -/
theorem Past.look_of_within (hview : view.within sight = true) (hc : h.Past (view.look c)) :
    h.Past (sight.look c) := by
  cases view with
  | bars | token => exact Past.look hc
  | line =>
    cases sight with
    | line => exact hc
    | bars | token => cases hview

/-- Before the horizon, both cursors see the same kind. -/
theorem Near.kind? (hcd : h.Near c d) : d.kind? = c.kind? := by
  obtain ⟨ts, hne, hc, hd, -⟩ := hcd
  obtain ⟨t, us, rfl⟩ := List.exists_cons_of_ne_nil hne
  rw [Cursor.kind?, Cursor.kind?, hc, hd]
  rfl

/-- Before the horizon, both tokens touch or do not. -/
theorem Near.touching (hcd : h.Near c d) : d.touching = c.touching := by
  obtain ⟨ts, hne, hc, hd, -⟩ := hcd
  obtain ⟨t, us, rfl⟩ := List.exists_cons_of_ne_nil hne
  rw [Cursor.touching, Cursor.touching, hc, hd]
  rfl

/-- Before the horizon, both tokens have the same place. -/
theorem Near.place (hcd : h.Near c d) (finish finish' : σ) :
    d.place finish' = c.place finish := by
  obtain ⟨ts, hne, hc, hd, -⟩ := hcd
  obtain ⟨t, us, rfl⟩ := List.exists_cons_of_ne_nil hne
  rw [Cursor.place, Cursor.place, hc, hd]
  rfl

/-- Before the horizon, both cursors are behind the same token. -/
theorem Near.since [Location σ] (hcd : h.Near c d) (first : σ) : d.since first = c.since first := by
  obtain ⟨ts, -, -, -, hpassed⟩ := hcd
  rw [Cursor.since, Cursor.since, hpassed]

/-- One token on, both are still before what differs, or the first is past it. -/
theorem Near.next (hcd : h.Near c d) : h.Past c.next ∨ h.Near c.next d.next := by
  obtain ⟨passed, ahead⟩ := c
  obtain ⟨passed', ahead'⟩ := d
  obtain ⟨ts, hne, rfl, rfl, hpassed⟩ := hcd
  obtain ⟨t, us, rfl⟩ := List.exists_cons_of_ne_nil hne
  by_cases hus : us = []
  · subst hus
    exact .inl (Nat.le_refl _)
  · exact .inr ⟨us, hus, rfl, rfl, congrArg (t :: ·) hpassed⟩

/-- Tokens are skipped alike up to the horizon. -/
theorem Near.skip (p : Kind → Bool) (hcd : h.Near c d) :
    h.Past (c.skip p) ∨ h.Near (c.skip p) (d.skip p) := by
  obtain ⟨passed, ahead⟩ := c
  obtain ⟨passed', ahead'⟩ := d
  obtain ⟨ts, hne, rfl, rfl, hpassed⟩ := hcd
  obtain rfl : passed' = passed := hpassed
  induction ts generalizing passed' with
  | nil => exact absurd rfl hne
  | cons t ts ih =>
    cases ht : p t.kind with
    | false =>
      rw [List.cons_append, List.cons_append, Cursor.skip_cons_of_neg ht,
        Cursor.skip_cons_of_neg ht]
      exact .inr ⟨t :: ts, hne, rfl, rfl, rfl⟩
    | true =>
      rw [List.cons_append, List.cons_append, Cursor.skip_cons_of_pos ht,
        Cursor.skip_cons_of_pos ht]
      by_cases hts : ts = []
      · subst hts
        exact .inl (Cursor.length_skip_le p _)
      · exact ih (t :: passed') hts

/-! ## outcomes -/

variable (h)

/-- The reading stops past what is alike: where a value is found as far as `sight` matters
there, where an error is found in any case. -/
def Ends (sight : View) : Outcome σ α → Prop
  | .done _ c => h.Past (sight.look c)
  | .failed _ c => h.Past c
  | .exhausted => True

/-- Both readings end alike, at the same position. -/
inductive Same : Outcome σ α → Outcome σ α → Prop where
  | done {v : α} {c d : Cursor σ} (hcd : h.Near c d) : Same (.done v c) (.done v d)
  | failed {e : ParseError σ} {c d : Cursor σ} (hcd : h.Near c d) :
      Same (.failed e c) (.failed e d)

/-- From the same position both readings end alike, or the first one past what is alike;
and from there it does not come back, nor from where `view` is past it. -/
structure Tracks (view sight : View) (p : Parse σ α) : Prop where
  stays : ∀ c, h.Past c → h.Ends .token (p.run h.first c)
  leaves : ∀ c, h.Past (view.look c) → h.Ends sight (p.run h.first c)
  keeps : ∀ c d, h.Near c d →
    h.Ends sight (p.run h.first c) ∨ h.Same (p.run h.first c) (p.run h.second d)

variable {h}

theorem Ends.mono {o : Outcome σ α} (ho : h.Ends .token o) (sight : View) : h.Ends sight o := by
  cases o with
  | done v c => exact Past.look ho
  | failed e c => exact ho
  | exhausted => trivial

/-- A parser after another ends alike if both do. -/
theorem Ends.bind {p : Parse σ α} {q : α → Parse σ β} {sight' : View}
    (hp : h.Ends sight (p.run h.first c)) (hq : ∀ v, h.Tracks sight sight' (q v)) :
    h.Ends sight' ((p >>= q).run h.first c) := by
  rw [Parse.run_bind]
  generalize p.run h.first c = o at hp ⊢
  cases o with
  | done v c' => exact (hq v).leaves c' hp
  | failed e c' => exact hp
  | exhausted => trivial

/-! ## steps -/

namespace Tracks

variable {p : Parse σ α} {q : α → Parse σ β} {sight' : View}

/-- Parsers one after the other, each as far as it sees. -/
theorem bind (hp : h.Tracks view sight p) (hq : ∀ v, h.Tracks sight sight' (q v)) :
    h.Tracks view sight' (p >>= q) := by
  refine ⟨fun c hc => ?_, fun c hc => Ends.bind (hp.leaves c hc) hq, fun c d hcd => ?_⟩
  · have hends := hp.stays c hc
    rw [Parse.run_bind]
    generalize p.run h.first c = o at hends ⊢
    cases o with
    | done v c' => exact (hq v).stays c' hends
    | failed e c' => exact hends
    | exhausted => trivial
  · obtain hends | hsame := hp.keeps c d hcd
    · exact .inl (Ends.bind hends hq)
    · rw [Parse.run_bind, Parse.run_bind]
      generalize p.run h.first c = o, p.run h.second d = o' at hsame ⊢
      cases hsame with
      | @done v c' d' hcd' => exact (hq v).keeps c' d' hcd'
      | failed hcd' => exact .inr (.failed hcd')

/-- Where no more than the token under the cursor was seen. -/
theorem of_near (hview : view.isNear = true)
    (hstays : ∀ c, h.Past c → h.Ends .token (p.run h.first c))
    (hkeeps : ∀ c d, h.Near c d →
      h.Ends .token (p.run h.first c) ∨ h.Same (p.run h.first c) (p.run h.second d)) :
    h.Tracks view sight p := by
  refine ⟨hstays, fun c hc => ?_, fun c d hcd => (hkeeps c d hcd).imp (Ends.mono · sight) id⟩
  rw [View.look_of_isNear hview] at hc
  exact (hstays c hc).mono sight

/-- A step that only looks at what is alike. -/
theorem still (value : Context σ → Cursor σ → α)
    (hrun : ∀ context c, p.run context c = .done (value context c) c)
    (hsame : ∀ c d, h.Near c d → value h.second d = value h.first c) : h.Tracks view view p := by
  refine ⟨fun c hc => ?_, fun c hc => ?_, fun c d hcd => .inr ?_⟩
  · rw [hrun]
    exact hc
  · rw [hrun]
    exact hc
  · rw [hrun, hrun, hsame c d hcd]
    exact .done hcd

theorem pure (v : α) (hview : view.within sight = true) :
    h.Tracks view sight (Pure.pure v : Parse σ α) :=
  ⟨fun _ hc => hc, fun _ hc => hc.look_of_within hview, fun _ _ hcd => .inr (.done hcd)⟩

theorem fail (e : ParseError σ) (hview : view.isNear = true) :
    h.Tracks view sight (Parse.fail e : Parse σ α) :=
  of_near hview (fun _ hc => hc) fun _ _ hcd => .inr (.failed hcd)

theorem exhausted : h.Tracks view sight (Parse.exhausted : Parse σ α) :=
  ⟨fun _ _ => trivial, fun _ _ => trivial, fun _ _ _ => .inl trivial⟩

theorem peek : h.Tracks view view Parse.peek :=
  still (fun _ c => c.kind?) (fun _ _ => rfl) fun _ _ hcd => hcd.kind?

theorem touching : h.Tracks view view Parse.touching :=
  still (fun _ c => c.touching) (fun _ _ => rfl) fun _ _ hcd => hcd.touching

theorem place : h.Tracks view view Parse.place :=
  still (fun context c => c.place context.finish) (fun _ _ => rfl) fun _ _ hcd => hcd.place _ _

theorem since [Location σ] (first : σ) : h.Tracks view view (Parse.since first) :=
  still (fun _ c => c.since first) (fun _ _ => rfl) fun _ _ hcd => hcd.since first

theorem takesArguments (name : String) : h.Tracks view view (Parse.takesArguments name) :=
  still (fun context _ => decide (name ∈ context.calls)) (fun _ _ => rfl) fun _ _ _ => by
    rw [h.calls]

theorem invoke (name : String) (span : σ) (few : Bool) (v : α) :
    h.Tracks .token sight (Parse.takesArguments name >>= fun takes =>
      if few || takes then Pure.pure v else Parse.fail (.needsParentheses name span)) := by
  apply (takesArguments name).bind
  intro takes
  split
  · exact pure v rfl
  · exact fail (.needsParentheses name span) rfl

theorem advance (hview : view.isNear = true) : h.Tracks view sight Parse.advance :=
  of_near hview (fun _ hc => hc.next) fun _ _ hcd => hcd.next.imp id .done

theorem skipNewlines (hview : view.isNear = true) : h.Tracks view sight Parse.skipNewlines :=
  of_near hview (fun _ hc => hc.skip _) fun _ _ hcd => (hcd.skip _).imp id .done

/-- Past the line breaks stands what was seen behind them. -/
theorem skipLine : h.Tracks .line .token Parse.skipNewlines :=
  ⟨fun _ hc => hc.skip _, fun _ hc => hc, fun _ _ hcd => (hcd.skip _).imp id .done⟩

theorem skipSeparators : h.Tracks view .token Parse.skipSeparators := by
  refine ⟨fun _ hc => hc.skip _, fun c hc => ?_, fun _ _ hcd => (hcd.skip _).imp id .done⟩
  change h.Past c.skipSeparators
  cases view with
  | bars | token => exact hc.skip _
  | line =>
    rw [← Cursor.skipSeparators_skipNewlines]
    exact Past.skip _ hc

/-- The look past line breaks is alike, or leaves only line breaks before what differs. -/
theorem peekPastNewlines {q : Option Kind → Parse σ β} (hq : ∀ k, h.Tracks .line sight (q k)) :
    h.Tracks .token sight (Parse.peekPastNewlines >>= q) := by
  refine ⟨fun c hc => (hq _).stays c hc, fun c hc => (hq _).leaves c (hc.skip _),
    fun c d hcd => ?_⟩
  rw [Parse.run_peekPastNewlines_bind, Parse.run_peekPastNewlines_bind]
  obtain hpast | hnear := hcd.skip (· == .newline)
  · exact .inl ((hq _).leaves c hpast)
  · have hkind : d.skipNewlines.kind? = c.skipNewlines.kind? := hnear.kind?
    rw [hkind]
    exact (hq _).keeps c d hcd

/-- A second look: it sees what the look past line breaks saw, or a line break. -/
theorem peekAgain {q : Option Kind → Parse σ β}
    (hhere : ∀ k, k ≠ .newline → h.Tracks .token sight (q (some k)))
    (hpast : ∀ k, (∀ k' ∈ k, k' = .newline) → h.Tracks .line sight (q k)) :
    h.Tracks .line sight (Parse.peek >>= q) := by
  have hcases (c : Cursor σ) :
      h.Tracks .line sight (q c.kind?) ∨
        c.skipNewlines = c ∧ h.Tracks .token sight (q c.kind?) := by
    obtain hnewline | ⟨k, hne, hk⟩ := c.kind?_newline_or
    · exact .inl (hpast c.kind? hnewline)
    · exact .inr ⟨Cursor.skip_eq_self hk (beq_false_of_ne hne), hk ▸ hhere k hne⟩
  refine ⟨fun c hc => ?_, fun c hc => ?_, fun c d hcd => ?_⟩
  · rw [Parse.run_peek_bind]
    obtain hq | ⟨-, hq⟩ := hcases c
    · exact hq.stays c hc
    · exact hq.stays c hc
  · rw [Parse.run_peek_bind]
    obtain hq | ⟨hself, hq⟩ := hcases c
    · exact hq.leaves c hc
    · have hc : h.Past c.skipNewlines := hc
      rw [hself] at hc
      exact hq.leaves c hc
  · rw [Parse.run_peek_bind, Parse.run_peek_bind, hcd.kind?]
    obtain hq | ⟨-, hq⟩ := hcases c
    · exact hq.keeps c d hcd
    · exact hq.keeps c d hcd

/-- What is reported as unexpected is at the cursor, so it was seen. -/
theorem unexpected (e : Expectation) (hview : view.isNear = true) :
    h.Tracks view sight (Parse.unexpected e : Parse σ α) :=
  peek.bind fun k => place.bind fun here => fail (.unexpected e k here) hview

end Tracks

/-! ## the grammar -/

variable [Location σ] {n floor depth : Nat} {known : Option Kind} {g : α → β} {p : Parse σ α}
  {q : Parse σ β}

/-- What takes the steps of the grammar tracks the other reading, if the phrases in it do. -/
theorem Tracks.of_walk
    (ih : ∀ (p : Phrase σ) {known : Option Kind} {view : View}, p.Enters view known →
      h.Tracks view p.sight (p.parse n))
    (hwalk : Walk id n n floor sight g known depth view p q) : h.Tracks view sight p := by
  induction hwalk with
  | pure v hview => exact pure v hview
  | fail e hview => exact fail e hview
  | unexpected expected hview => exact unexpected expected hview
  | peek _ _ _ _ hq => exact peek.bind hq
  | peekAgain _ _ hhere hpast => exact peekAgain hhere hpast
  | peekPastNewlines _ hq => exact peekPastNewlines hq
  | touching _ _ hq => exact touching.bind fun b => hq b b fun _ => rfl
  | place _ hq => exact place.bind hq
  | since first _ hq => exact (since first).bind hq
  | invoke name span few v => exact invoke name span few v
  | skipLine _ hq => exact skipLine.bind fun _ => hq
  | skipNewlines hview _ hq => exact (skipNewlines hview).bind fun _ => hq
  | skipSeparators _ hq => exact skipSeparators.bind fun _ => hq
  | advance _ _ _ _ hq | opener _ _ _ hq | closer _ _ hq | bar _ hq | parameter _ _ hq =>
    exact (advance rfl).bind fun _ => hq
  | phrase p henters _ hq => exact (ih p henters).bind hq

/-- **Horizon**: whatever comes after, every phrase is read alike as far as the vectors are. -/
theorem tracks (h : Horizon σ) (n : Nat) (p : Phrase σ) (henters : p.Enters view known) :
    h.Tracks view p.sight (p.parse n) := by
  induction n generalizing p known view with
  | zero =>
    rw [p.parse_zero]
    exact .exhausted
  | succ n ih =>
    exact .of_walk (fun p _ _ => ih p) (p.walks (f := id) (fun _ _ => rfl) n n 0 henters)

end Horizon

end CallGrammar
