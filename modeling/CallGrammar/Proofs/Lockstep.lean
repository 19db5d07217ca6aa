import CallGrammar.Grammar.Fuel
import CallGrammar.Proofs.Walk.Grammar
import Mathlib.Data.List.Forall2

/-!
# CallGrammar.Proofs.Lockstep

Two readings of one token vector.  The second may allow more nested calls, know
more statement calls, and carry other places; and a token may touch the one
before it in one vector and not in the other, unless it is an opening bracket.

The main statement, `Lockstep.follows`, is that nothing of this matters but for
one test: the second reading ends as the first does, at the moved places, unless
the first ran out of calls, or stopped at a name that only the second knows as a
statement call.  Each step keeps this up; so whatever is a `Walk` does.
-/

namespace CallGrammar

variable {σ τ α β γ δ : Type}

/-! ## vectors that read alike -/

/-- The same token at the place `f` gives; brackets touch alike. -/
def Token.Alike (f : σ → τ) (t : Token σ) (u : Token τ) : Prop :=
  u.kind = t.kind ∧ u.span = f t.span ∧ (t.kind = .symbol .openBracket → u.touching = t.touching)

theorem Token.alike_id (t : Token σ) : t.Alike id t :=
  ⟨rfl, rfl, fun _ => rfl⟩

/-- The same position in vectors that read alike. -/
def Cursor.Alike (f : σ → τ) (c : Cursor σ) (d : Cursor τ) : Prop :=
  List.Forall₂ (Token.Alike f) c.passed d.passed ∧ List.Forall₂ (Token.Alike f) c.ahead d.ahead

/-- Cursors at the start of tokens and of the same tokens at other places. -/
theorem Cursor.alike_start (f : σ → τ) (ts : List (Token σ)) :
    (Cursor.start ts).Alike f (Cursor.start (ts.map (Token.map f))) := by
  have hmap : List.Forall₂ (Token.Alike f) ts (ts.map (Token.map f)) :=
    List.forall₂_map_right_iff.2 (List.forall₂_same.2 fun _ _ => ⟨rfl, rfl, fun _ => rfl⟩)
  exact ⟨.nil, hmap⟩

namespace Cursor

variable {f : σ → τ} {c : Cursor σ} {d : Cursor τ}

/-- Both cursors see the same kind. -/
theorem Alike.kind? (h : c.Alike f d) : d.kind? = c.kind? := by
  obtain ⟨passed, ahead⟩ := c
  obtain ⟨passed', ahead'⟩ := d
  obtain ⟨-, h⟩ := h
  cases h with
  | nil => rfl
  | cons ht _ => exact congrArg some ht.1

/-- The place of the second cursor is the image of that of the first. -/
theorem Alike.place {finish : σ} {finish' : τ} (hf : finish' = f finish) (h : c.Alike f d) :
    d.place finish' = f (c.place finish) := by
  obtain ⟨passed, ahead⟩ := c
  obtain ⟨passed', ahead'⟩ := d
  obtain ⟨-, h⟩ := h
  cases h with
  | nil => exact hf
  | cons ht _ => exact ht.2.1

/-- Whether a bracket touches what is before it is the same. -/
theorem Alike.touching (h : c.Alike f d) (hk : c.kind? = some (.symbol .openBracket)) :
    d.touching = c.touching := by
  obtain ⟨passed, ahead⟩ := c
  obtain ⟨passed', ahead'⟩ := d
  obtain ⟨-, h⟩ := h
  cases h with
  | nil => rfl
  | cons ht _ => exact ht.2.2 (Option.some.inj hk)

/-- Places that reach back to the same token are images of each other. -/
theorem Alike.since [Location σ] [Location τ]
    (hm : ∀ a b, f (Location.merge a b) = Location.merge (f a) (f b)) (h : c.Alike f d)
    (first : σ) : d.since (f first) = f (c.since first) := by
  obtain ⟨passed, ahead⟩ := c
  obtain ⟨passed', ahead'⟩ := d
  obtain ⟨h, -⟩ := h
  cases h with
  | nil => rfl
  | cons ht _ =>
    change Location.merge (f first) _ = f (Location.merge first _)
    rw [hm, ht.2.1]

/-- Both cursors pass a token. -/
theorem Alike.next (h : c.Alike f d) : c.next.Alike f d.next := by
  obtain ⟨passed, ahead⟩ := c
  obtain ⟨passed', ahead'⟩ := d
  obtain ⟨hp, h⟩ := h
  cases h with
  | nil => exact ⟨hp, .nil⟩
  | cons ht h => exact ⟨.cons ht hp, h⟩

/-- Both cursors skip the same tokens. -/
theorem Alike.skip (p : Kind → Bool) (h : c.Alike f d) : (c.skip p).Alike f (d.skip p) := by
  obtain ⟨passed, ahead⟩ := c
  obtain ⟨passed', ahead'⟩ := d
  obtain ⟨hp, h⟩ := h
  simp only at hp h
  induction h generalizing passed passed' with
  | nil => exact ⟨hp, .nil⟩
  | @cons t u ts us ht h ih =>
    cases hk : p t.kind with
    | false =>
      have hu : p u.kind = false := by rw [ht.1, hk]
      rw [skip_cons_of_neg hk, skip_cons_of_neg hu]
      exact ⟨hp, .cons ht h⟩
    | true =>
      have hu : p u.kind = true := by rw [ht.1, hk]
      rw [skip_cons_of_pos hk, skip_cons_of_pos hu]
      exact ih (t :: passed) (u :: passed') (.cons ht hp)

theorem alike_id (c : Cursor σ) : c.Alike id c :=
  ⟨List.forall₂_same.2 fun t _ => t.alike_id, List.forall₂_same.2 fun t _ => t.alike_id⟩

end Cursor

/-! ## outcomes that follow -/

/-- What two readings have to do with each other: the place that the second
gives to each place of the first, and the contexts of the two. -/
structure Lockstep (σ τ : Type) [Location σ] [Location τ] where
  move : σ → τ
  first : Context σ
  second : Context τ
  merge : ∀ a b, move (Location.merge a b) = Location.merge (move a) (move b)
  finish : second.finish = move first.finish
  calls : ∀ name, name ∈ first.calls → name ∈ second.calls

namespace Lockstep

variable [Location σ] [Location τ] (s : Lockstep σ τ)

/-- The second reading might not stop at this error: it names a statement call
that only the second knows. -/
def Pardoned (e : ParseError σ) : Prop :=
  ∃ name span, e = .needsParentheses name span ∧ name ∈ s.second.calls ∧ name ∉ s.first.calls

/-- The second outcome is the first one at the moved places, its value given by
`g`, unless the first is no answer or an error that the second is pardoned. -/
def After (g : α → β) : Outcome σ α → Outcome τ β → Prop
  | .done v c, o => ∃ d, o = .done (g v) d ∧ c.Alike s.move d
  | .failed e c, o => s.Pardoned e ∨ ∃ d, o = .failed (e.map s.move) d ∧ c.Alike s.move d
  | .exhausted, _ => True

/-- From positions that read alike the second reading ends after the first.  The first has looked
up to `view` and seen a token of the kind `known` there, if one is given. -/
def Follows (known : Option Kind) (view : View) (g : α → β) (p : Parse σ α)
    (q : Parse τ β) : Prop :=
  ∀ c d, c.Alike s.move d → (∀ k ∈ known, (view.look c).kind? = some k) →
    s.After g (p.run s.first c) (q.run s.second d)

/-! ## steps -/

variable {s} {known : Option Kind} {view view' : View} {g : α → β} {h : γ → δ} {p : Parse σ α}
  {q : Parse τ β} {p' : α → Parse σ γ} {q' : β → Parse τ δ}

/-- How far was looked says nothing where nothing was seen. -/
theorem Follows.unseen (h : s.Follows none view g p q) : s.Follows none view' g p q :=
  fun c d hcd _ => h c d hcd nofun

/-- Parsers that follow each other, one after the other. -/
theorem bind (hp : s.Follows known view g p q)
    (hq : ∀ v, s.Follows none .token h (p' v) (q' (g v))) :
    s.Follows known view h (p >>= p') (q >>= q') := by
  intro c d hcd hk
  rw [Parse.run_bind, Parse.run_bind]
  have hpq := hp c d hcd hk
  cases hc : p.run s.first c with
  | done v c' =>
    rw [hc] at hpq
    obtain ⟨d', hd, hcd'⟩ := hpq
    rw [hd]
    exact hq v c' d' hcd' nofun
  | failed e c' =>
    rw [hc] at hpq
    obtain hpq | ⟨d', hd, hcd'⟩ := hpq
    · exact .inl hpq
    · rw [hd]
      exact .inr ⟨d', rfl, hcd'⟩
  | exhausted => trivial

theorem pure (g : α → β) (v : α) : s.Follows known view g (Pure.pure v) (Pure.pure (g v)) :=
  fun _ d hcd _ => ⟨d, rfl, hcd⟩

theorem fail (g : α → β) (e : ParseError σ) :
    s.Follows known view g (Parse.fail e) (Parse.fail (e.map s.move)) :=
  fun _ d hcd _ => .inr ⟨d, rfl, hcd⟩

theorem exhausted (g : α → β) (q : Parse τ β) : s.Follows known view g Parse.exhausted q :=
  fun _ _ _ _ => trivial

/-- What is seen is alike, and is under the cursor of the first reading. -/
theorem peek {p' : Option Kind → Parse σ γ} {q' : Option Kind → Parse τ δ}
    (hview : view.isNear = true) (hq : ∀ k, s.Follows k view h (p' k) (q' k)) :
    s.Follows known view h (Parse.peek >>= p') (Parse.peek >>= q') := by
  intro c d hcd _
  rw [Parse.run_peek_bind, Parse.run_peek_bind, hcd.kind?]
  refine hq c.kind? c d hcd fun k hk => ?_
  rw [View.look_of_isNear hview]
  exact hk

/-- What was seen past line breaks is looked at again: past them, nothing is known. -/
theorem peekAgain {p' : Option Kind → Parse σ γ} {q' : Option Kind → Parse τ δ}
    (hhere : ∀ k, k ≠ .newline → s.Follows (some k) .token h (p' (some k)) (q' (some k)))
    (hpast : ∀ k, (∀ k' ∈ k, k' = .newline) → s.Follows none .line h (p' k) (q' k)) :
    s.Follows known .line h (Parse.peek >>= p') (Parse.peek >>= q') := by
  intro c d hcd _
  rw [Parse.run_peek_bind, Parse.run_peek_bind, hcd.kind?]
  obtain hnewline | ⟨k, hne, hk⟩ := c.kind?_newline_or
  · exact hpast c.kind? hnewline c d hcd nofun
  · rw [hk]
    exact hhere k hne c d hcd fun _ hk' => hk.trans hk'

theorem peekPastNewlines {p' : Option Kind → Parse σ γ} {q' : Option Kind → Parse τ δ}
    (hq : ∀ k, s.Follows k .line h (p' k) (q' k)) :
    s.Follows known .token h (Parse.peekPastNewlines >>= p') (Parse.peekPastNewlines >>= q') := by
  intro c d hcd _
  have hk : d.skipNewlines.kind? = c.skipNewlines.kind? := (hcd.skip _).kind?
  rw [Parse.run_peekPastNewlines_bind, Parse.run_peekPastNewlines_bind, hk]
  exact hq c.skipNewlines.kind? c d hcd fun _ hk => hk

/-- Whether the token touches the one before it is the same in both vectors where
it can matter: at an opening bracket. -/
theorem touching {p' : Bool → Parse σ γ} {q' : Bool → Parse τ δ}
    (hq : ∀ b b', (known = some (.symbol .openBracket) → b' = b) →
      s.Follows known .token h (p' b) (q' b')) :
    s.Follows known .token h (Parse.touching >>= p') (Parse.touching >>= q') := by
  intro c d hcd hk
  rw [Parse.run_touching_bind, Parse.run_touching_bind]
  exact hq c.touching d.touching (fun hb => hcd.touching (hk _ hb)) c d hcd hk

theorem place {p' : σ → Parse σ γ} {q' : τ → Parse τ δ}
    (hq : ∀ here, s.Follows known view h (p' here) (q' (s.move here))) :
    s.Follows known view h (Parse.place >>= p') (Parse.place >>= q') := by
  intro c d hcd hk
  rw [Parse.run_place_bind, Parse.run_place_bind, hcd.place s.finish]
  exact hq _ c d hcd hk

theorem since (first : σ) {p' : σ → Parse σ γ} {q' : τ → Parse τ δ}
    (hq : ∀ whole, s.Follows known view h (p' whole) (q' (s.move whole))) :
    s.Follows known view h (Parse.since first >>= p')
      (Parse.since (s.move first) >>= q') := by
  intro c d hcd hk
  rw [Parse.run_since_bind, Parse.run_since_bind, hcd.since s.merge]
  exact hq _ c d hcd hk

/-- The one test that may end differently: the second reading may know the name. -/
theorem invoke (name : String) (span : σ) (few : Bool) (g : α → β) (v : α) :
    s.Follows known view g
      (Parse.takesArguments name >>= fun takes =>
        if few || takes then Pure.pure v else Parse.fail (.needsParentheses name span))
      (Parse.takesArguments name >>= fun takes =>
        if few || takes then Pure.pure (g v)
        else Parse.fail (.needsParentheses name (s.move span))) := by
  intro c d hcd hk
  rw [Parse.run_takesArguments_bind, Parse.run_takesArguments_bind]
  by_cases hfew : few = true
  · rw [hfew]
    exact pure g v c d hcd hk
  · obtain rfl : few = false := eq_false_of_ne_true hfew
    by_cases hfirst : name ∈ s.first.calls
    · rw [decide_eq_true hfirst, decide_eq_true (s.calls name hfirst)]
      exact pure g v c d hcd hk
    · rw [decide_eq_false hfirst]
      by_cases hsecond : name ∈ s.second.calls
      · exact .inl ⟨name, span, rfl, hsecond, hfirst⟩
      · rw [decide_eq_false hsecond]
        exact fail g (.needsParentheses name span) c d hcd hk

theorem advance : s.Follows known view id Parse.advance Parse.advance :=
  fun _ d hcd _ => ⟨d.next, rfl, hcd.next⟩

theorem skipNewlines : s.Follows known view id Parse.skipNewlines Parse.skipNewlines :=
  fun _ d hcd _ => ⟨d.skipNewlines, rfl, hcd.skip _⟩

/-- Past the line breaks stands what was seen behind them. -/
theorem skipLine {p' : Unit → Parse σ γ} {q' : Unit → Parse τ δ}
    (hq : s.Follows known .token h (p' ()) (q' ())) :
    s.Follows known .line h (Parse.skipNewlines >>= p') (Parse.skipNewlines >>= q') := by
  intro c d hcd hk
  rw [Parse.run_skipNewlines_bind, Parse.run_skipNewlines_bind]
  exact hq c.skipNewlines d.skipNewlines (hcd.skip _) hk

theorem skipSeparators : s.Follows known view id Parse.skipSeparators Parse.skipSeparators :=
  fun _ d hcd _ => ⟨d.skipSeparators, rfl, hcd.skip _⟩

/-- Both report the same kind, each at its own place. -/
theorem unexpected (g : α → β) (e : Expectation) (hview : view.isNear = true) :
    s.Follows known view g (Parse.unexpected e) (Parse.unexpected e) :=
  peek hview fun k => place fun here => fail g (.unexpected e k here)

/-! ## the grammar -/

variable {n m : Nat}

/-- What takes the same steps keeps in step, if the phrases in it do. -/
theorem of_walk {floor depth : Nat} {sight : View}
    (ih : ∀ (p : Phrase σ) {known : Option Kind} {view : View}, p.Enters view known →
      s.Follows known view (p.mapValue s.move) (p.parse n) ((p.map s.move).parse m))
    (hwalk : Walk s.move n m floor sight g known depth view p q) :
    s.Follows known view g p q := by
  induction hwalk with
  | pure v => exact pure g v
  | fail e => exact fail g e
  | unexpected expected hview => exact unexpected g expected hview
  | peek hview _ _ _ hq => exact peek hview hq
  | peekAgain _ _ hhere hpast => exact peekAgain hhere hpast
  | peekPastNewlines _ hq => exact peekPastNewlines hq
  | touching _ _ hq => exact touching hq
  | place _ hq => exact place hq
  | since first _ hq => exact since first hq
  | invoke name span few v => exact invoke name span few g v
  | skipLine _ hq => exact skipLine hq
  | skipNewlines _ _ hq => exact bind skipNewlines fun _ => hq.unseen
  | skipSeparators _ hq => exact bind skipSeparators fun _ => hq
  | advance _ _ _ _ hq | opener _ _ _ hq | closer _ _ hq | bar _ hq | parameter _ _ hq =>
    exact bind advance fun _ => hq.unseen
  | phrase p henters _ hq => exact bind (ih p henters) fun v => (hq v).unseen

/-- **Lockstep**: with at least as many nested calls, the second reading of any
phrase ends after the first. -/
theorem follows (s : Lockstep σ τ) (h : n ≤ m) (p : Phrase σ) (henters : p.Enters view known) :
    s.Follows known view (p.mapValue s.move) (p.parse n) ((p.map s.move).parse m) := by
  induction n generalizing m p known view with
  | zero =>
    rw [p.parse_zero]
    exact exhausted _ _
  | succ n ih =>
    obtain ⟨m, rfl⟩ : ∃ k, m = k + 1 := ⟨m - 1, by omega⟩
    exact of_walk (fun p _ _ => ih (Nat.le_of_succ_le_succ h) p)
      (p.walks s.merge n m 0 henters)

end Lockstep

end CallGrammar
