import CallGrammar.Proofs.Walk.Grammar

/-!
# CallGrammar.Proofs.Crossing

A reading goes past valid tokens only, whether it ends with a value or with an error: where a
token is passed, its kind is known, and it is no fault.
-/

namespace CallGrammar

variable {σ α β : Type}

/-! ## positions -/

namespace Cursor

/-- The cursor goes past valid tokens only. -/
def Crosses (c d : Cursor σ) : Prop := ∃ ts, c.Passes ts d ∧ AllKinds Kind.isValid ts

variable {c d e : Cursor σ} {ts : List (Token σ)}

theorem Crosses.refl (c : Cursor σ) : c.Crosses c := ⟨[], .refl c, nofun⟩

/-- What is crossed on the way and then is crossed at once. -/
theorem Crosses.trans (h : c.Crosses d) (h' : d.Crosses e) : c.Crosses e := by
  obtain ⟨ts, hts, hvalid⟩ := h
  obtain ⟨us, hus, hvalid'⟩ := h'
  exact ⟨ts ++ us, hts.trans hus, hvalid.append hvalid'⟩

/-- From the first token on, what was passed is valid. -/
theorem Crosses.of_start (h : (start ts).Crosses d) :
    d.tokens = ts ∧ AllKinds Kind.isValid d.passed := by
  obtain ⟨us, ⟨hahead, hpassed⟩, hvalid⟩ := h
  have hd : d.passed = us.reverse := by simpa [start] using hpassed
  constructor
  · rw [tokens, hd, List.reverse_reverse]
    exact hahead.symm
  · intro t ht
    rw [hd] at ht
    exact hvalid t (List.mem_reverse.1 ht)

/-- A token that is no fault is crossed. -/
theorem Passes.crosses_one {t : Token σ} (h : c.Passes [t] d) (ht : t.kind.isValid = true) :
    c.Crosses d :=
  ⟨[t], h, by simpa [AllKinds] using ht⟩

/-- So is the one at the cursor. -/
theorem crosses_next {k : Kind} (h : c.kind? = some k) (hk : k.isValid = true) :
    c.Crosses c.next := by
  obtain ⟨t, ht, htk, -, -⟩ := passes_next h
  exact ht.crosses_one (by rw [htk, hk])

theorem crosses_skipNewlines (c : Cursor σ) : c.Crosses c.skipNewlines := by
  obtain ⟨nl, hnl, hall, -⟩ := c.passes_skipNewlines
  exact ⟨nl, hnl, hall.all rfl⟩

theorem crosses_skipSeparators (c : Cursor σ) : c.Crosses c.skipSeparators := by
  obtain ⟨seps, hseps, hall, -⟩ := c.passes_skip fun k => k == .newline || k == .symbol .semicolon
  have hseparators : Separators seps := hall
  exact ⟨seps, hseps, hseparators.all rfl rfl⟩

end Cursor

/-! ## outcomes -/

/-- The reading that began at `c` has gone past valid tokens only, if it has ended. -/
def Outcome.CrossesFrom (o : Outcome σ α) (c : Cursor σ) : Prop :=
  match o with
  | .done _ d | .failed _ d => c.Crosses d
  | .exhausted => True

/-- An outcome that is crossed to from a later cursor is so from an earlier one. -/
theorem Outcome.CrossesFrom.after {o : Outcome σ α} {c d : Cursor σ} (h : o.CrossesFrom d)
    (hcd : c.Crosses d) : o.CrossesFrom c := by
  cases o with
  | done v e => exact hcd.trans h
  | failed e c' => exact hcd.trans h
  | exhausted => trivial

/-- Where a token of the kind `known` was seen, if one is given, the reading goes past valid
tokens only. -/
def Crossing (context : Context σ) (known : Option Kind) (view : View) (p : Parse σ α) : Prop :=
  ∀ c, (∀ k ∈ known, (view.look c).kind? = some k) → (p.run context c).CrossesFrom c

namespace Crossing

/-! ## steps -/

variable {context : Context σ} {known : Option Kind} {view view' : View} {p : Parse σ α}
  {q : α → Parse σ β}

/-- A parser after another crosses what both cross. -/
theorem bind (hp : Crossing context known view p)
    (hq : ∀ v, Crossing context none view' (q v)) : Crossing context known view (p >>= q) := by
  intro c hk
  have hcross := hp c hk
  rw [Parse.run_bind]
  generalize p.run context c = o at hcross ⊢
  cases o with
  | done v d => exact (hq v d nofun).after hcross
  | failed e d => exact hcross
  | exhausted => trivial

theorem pure (v : α) : Crossing context known view (Pure.pure v) := fun c _ => .refl c

theorem fail (e : ParseError σ) : Crossing context known view (Parse.fail e : Parse σ α) :=
  fun c _ => .refl c

theorem exhausted : Crossing context known view (Parse.exhausted : Parse σ α) :=
  fun _ _ => trivial

theorem unexpected (e : Expectation) :
    Crossing context known view (Parse.unexpected e : Parse σ α) := by
  intro c _
  rw [Parse.run_unexpected]
  exact .refl c

/-- To look at the next kind crosses nothing, and tells what comes next. -/
theorem peek {q : Option Kind → Parse σ α} (hview : view.isNear = true)
    (hq : ∀ k, Crossing context k view (q k)) :
    Crossing context known view (Parse.peek >>= q) := by
  refine fun c _ => hq c.kind? c fun k hk => ?_
  rw [View.look_of_isNear hview]
  exact hk

/-- A token that was seen past line breaks, if any, is looked at where it stands. -/
theorem peekAgain {q : Option Kind → Parse σ α}
    (hhere : ∀ k, k ≠ .newline → Crossing context (some k) .token (q (some k)))
    (hpast : ∀ k, (∀ k' ∈ k, k' = .newline) → Crossing context none .line (q k)) :
    Crossing context known .line (Parse.peek >>= q) := by
  intro c _
  rw [Parse.run_peek_bind]
  obtain hnewline | ⟨k, hne, hk⟩ := c.kind?_newline_or
  · exact hpast c.kind? hnewline c nofun
  · rw [hk]
    exact hhere k hne c fun _ hk' => hk.trans hk'

theorem peekPastNewlines {q : Option Kind → Parse σ α}
    (hq : ∀ k, Crossing context k .line (q k)) :
    Crossing context known view (Parse.peekPastNewlines >>= q) :=
  fun c _ => hq c.skipNewlines.kind? c fun _ hk => hk

/-- Whether a name may take its arguments is seen without another token. -/
theorem invoke (name : String) (span : σ) (few : Bool) (v : α) :
    Crossing context known view (Parse.takesArguments name >>= fun takes =>
      if few || takes then Pure.pure v else Parse.fail (.needsParentheses name span)) := by
  intro c _
  rw [Parse.run_takesArguments_bind]
  split
  · exact .refl c
  · exact .refl c

theorem skipNewlines {q : Unit → Parse σ α} (hq : Crossing context none view (q ())) :
    Crossing context known view (Parse.skipNewlines >>= q) :=
  fun c _ => (hq c.skipNewlines nofun).after c.crosses_skipNewlines

/-- Past the line breaks stands what was seen behind them. -/
theorem skipLine {q : Unit → Parse σ α} (hq : Crossing context known .token (q ())) :
    Crossing context known .line (Parse.skipNewlines >>= q) :=
  fun c hk => (hq c.skipNewlines hk).after c.crosses_skipNewlines

theorem skipSeparators {q : Unit → Parse σ α} (hq : Crossing context none .token (q ())) :
    Crossing context known view (Parse.skipSeparators >>= q) :=
  fun c _ => (hq c.skipSeparators nofun).after c.crosses_skipSeparators

/-- A token is passed only once its kind is known, and a fault never is. -/
theorem advance {k : Kind} {q : Unit → Parse σ α} (hview : view.isNear = true)
    (hvalid : k.isValid = true) (hq : Crossing context none view' (q ())) :
    Crossing context (some k) view (Parse.advance >>= q) := by
  intro c hk
  have hkind := hk k rfl
  rw [View.look_of_isNear hview] at hkind
  exact (hq c.next nofun).after (Cursor.crosses_next hkind hvalid)

/-! ## the grammar -/

variable [Location σ] {n floor depth : Nat} {sight : View} {g : α → β} {r : Parse σ β}

/-- What takes the steps of the grammar goes past valid tokens only, if the phrases in it do. -/
theorem of_walk
    (ih : ∀ (p : Phrase σ) {known : Option Kind} {view : View}, p.Enters view known →
      Crossing context known view (p.parse n))
    (hwalk : Walk id n n floor sight g known depth view p r) : Crossing context known view p := by
  induction hwalk with
  | pure v => exact pure v
  | fail e => exact fail e
  | unexpected expected => exact unexpected expected
  | peek hview _ _ _ hq => exact peek hview hq
  | peekAgain _ _ hhere hpast => exact peekAgain hhere hpast
  | peekPastNewlines _ hq => exact peekPastNewlines hq
  | touching _ _ hq => exact fun c hk => hq _ _ (fun _ => rfl) c hk
  | place _ hq | since _ _ hq => exact fun c hk => hq _ c hk
  | invoke name span few v => exact invoke name span few v
  | skipLine _ hq => exact skipLine hq
  | skipNewlines _ _ hq => exact skipNewlines hq
  | skipSeparators _ hq => exact skipSeparators hq
  | advance _ hvalid _ _ hq => exact advance rfl hvalid hq
  | opener hk _ _ hq => exact advance rfl (Kind.isValid_of_opensGroup hk) hq
  | closer hk _ hq => exact advance rfl (Kind.valid_of_closesGroup hk).1 hq
  | bar _ hq => exact advance rfl rfl hq
  | parameter hk _ hq => exact advance rfl (Kind.isValid_of_isParameter hk) hq
  | phrase p henters _ hq => exact bind (ih p henters) hq

end Crossing

variable [Location σ] {context : Context σ} {known : Option Kind} {view : View} {n : Nat}

/-- **Crossing**: a phrase is read, or read up to an error, past valid tokens only. -/
theorem Phrase.crosses (p : Phrase σ) (n : Nat) (henters : p.Enters view known) :
    Crossing context known view (p.parse n) := by
  induction n generalizing p known view with
  | zero =>
    rw [p.parse_zero]
    exact .exhausted
  | succ n ih =>
    exact .of_walk (fun p _ _ => ih p) (p.walks (f := id) (fun _ _ => rfl) n n 0 henters)

/-- A phrase that is read goes past valid tokens. -/
theorem Phrase.crosses_of_done (p : Phrase σ) {c d : Cursor σ} {v : p.Value}
    (h : (p.parse n).run context c = .done v d) (henters : p.Enters .token none) :
    c.Crosses d := by
  have hcrossing : Crossing context none .token (p.parse n) := p.crosses n henters
  have hcross := hcrossing c nofun
  rw [h] at hcross
  exact hcross

end CallGrammar
