import CallGrammar.Proofs.Reading.Passes

/-!
# CallGrammar.Proofs.Reading.Steps

Steps that have to succeed on the tokens ahead.  A reading may run out of nested
calls, but if it does not, it ends with its value after the tokens; so nothing needs
to say how many calls are enough.
-/

namespace CallGrammar

variable {σ α β : Type}

/-- The reading goes past the tokens `ts` with the value, unless it runs out of nested
calls; the tokens `after` are left. -/
def Reaches (context : Context σ) (p : Parse σ α) (c : Cursor σ) (ts after : List (Token σ))
    (v : α) : Prop :=
  p.run context c = .exhausted ∨
    ∃ c', p.run context c = .done v c' ∧ c.Passes ts c' ∧ c'.ahead = after

/-! ## what is ahead -/

namespace Cursor

variable {c : Cursor σ} {t : Token σ} {nl ts rest : List (Token σ)}

/-- Under the cursor is the first of the tokens ahead. -/
theorem kind?_of_ahead (h : c.ahead = ts) : c.kind? = headKind ts := by
  rw [← h]
  rfl

theorem kind?_cons (h : c.ahead = t :: rest) : c.kind? = some t.kind := c.kind?_of_ahead h

theorem kind?_eq {k : Kind} (h : c.ahead = t :: rest) (ht : t.kind = k) : c.kind? = some k := by
  rw [kind?_cons h, ht]

/-- The place of a cursor is that of the token it is on. -/
theorem place_cons (finish : σ) (h : c.ahead = t :: rest) : c.place finish = t.span := by
  rw [place, h]
  rfl

/-- From the start, the place is that of the first token, or the end of the text. -/
theorem place_start (finish : σ) (h : c.ahead = ts ++ []) :
    c.place finish = (start ts).place finish := by
  rw [place, h, List.append_nil]
  rfl

/-- Whether the next token touches the one before is told by the tokens ahead. -/
theorem touching_of_ahead (h : c.ahead = ts) : c.touching = headTouches ts := by
  rw [← h]
  rfl

/-- A step passes the token under the cursor. -/
theorem passes_cons (h : c.ahead = t :: rest) : c.Passes [t] c.next ∧ c.next.ahead = rest := by
  obtain ⟨passed, ahead⟩ := c
  subst h
  exact ⟨⟨rfl, rfl⟩, rfl⟩

/-- Tokens of a kind are skipped up to the first of another. -/
theorem dropWhile_append {p : Kind → Bool} (hts : AllKinds p ts)
    (hrest : ∀ k, headKind rest = some k → p k = false) :
    (ts ++ rest).takeWhile (p ·.kind) = ts ∧ (ts ++ rest).dropWhile (p ·.kind) = rest := by
  induction ts with
  | nil =>
    cases rest with
    | nil => exact ⟨rfl, rfl⟩
    | cons t rest =>
      have ht : p t.kind = false := hrest t.kind rfl
      simp [ht]
  | cons t ts ih =>
    obtain ⟨htake, hdrop⟩ := ih hts.tail
    simp [hts.head, htake, hdrop]

/-- A cursor skips the tokens of a kind that are ahead. -/
theorem passes_skip_of_ahead {p : Kind → Bool} (h : c.ahead = ts ++ rest) (hts : AllKinds p ts)
    (hrest : ∀ k, headKind rest = some k → p k = false) :
    c.Passes ts (c.skip p) ∧ (c.skip p).ahead = rest := by
  obtain ⟨htake, hdrop⟩ := dropWhile_append hts hrest
  have hahead : (c.skip p).ahead = rest := by rw [skip, h, hdrop]
  have hpassed : (c.skip p).passed = ts.reverse ++ c.passed := by rw [skip, h, htake]
  exact ⟨⟨by rw [hahead, h], hpassed⟩, hahead⟩

end Cursor

/-- No value without a sign begins with a sign. -/
theorem ofKind?_of_beginsPrimary {k : Kind} (h : beginsPrimary k = true) :
    UnaryOp.ofKind? k = none := by
  unfold UnaryOp.ofKind?
  split
  · cases h
  · cases h
  · rfl

theorem headKind_not_newline {ts : List (Token σ)} (h : headKind ts ≠ some .newline) (k : Kind)
    (hk : headKind ts = some k) : (k == .newline) = false := by
  rw [beq_eq_false_iff_ne]
  rintro rfl
  exact h hk

/-- Behind line breaks, what is no line break is seen. -/
theorem headKindPastNewlines_append {nl ts : List (Token σ)} (hnl : Newlines nl)
    (hts : headKind ts ≠ some .newline) : headKindPastNewlines (nl ++ ts) = headKind ts := by
  obtain ⟨-, hdrop⟩ := Cursor.dropWhile_append hnl (headKind_not_newline hts)
  rw [headKindPastNewlines, hdrop]

/-! ## steps -/

namespace Reaches

open Parse

variable {context : Context σ} {p : Parse σ α} {q : α → Parse σ β} {c : Cursor σ} {t : Token σ}
  {nl ts us rest after : List (Token σ)} {u : α} {v : β}

theorem exhausted : Reaches context (Parse.exhausted : Parse σ α) c ts after u := .inl rfl

theorem pure (hc : c.ahead = after) : Reaches context (Pure.pure u) c [] after u :=
  .inr ⟨c, rfl, .refl c, hc⟩

/-- A parser after another, on the tokens that the first has passed. -/
theorem bind (hp : Reaches context p c ts rest u)
    (hq : ∀ d, c.Passes ts d → d.ahead = rest → Reaches context (q u) d us after v) :
    Reaches context (p >>= q) c (ts ++ us) after v := by
  obtain hp | ⟨d, hp, hpasses, hd⟩ := hp
  · exact .inl (by rw [run_bind, hp])
  · obtain hq | ⟨e, hq, hpasses', he⟩ := hq d hpasses hd
    · exact .inl (by rw [run_bind, hp]; exact hq)
    · exact .inr ⟨e, by rw [run_bind, hp]; exact hq, hpasses.trans hpasses', he⟩

/-- The last step that goes past tokens. -/
theorem last (hp : Reaches context p c ts after u)
    (hq : ∀ d, c.Passes ts d → d.ahead = after → Reaches context (q u) d [] after v) :
    Reaches context (p >>= q) c ts after v := by
  rw [← List.append_nil ts]
  exact hp.bind hq

/-- What is made of the value does not change what is read. -/
theorem map (f : α → β) (hp : Reaches context p c ts after u) :
    Reaches context (p >>= fun x => Pure.pure (f x)) c ts after (f u) :=
  hp.last fun _ _ hd => pure hd

/-- A token is passed. -/
theorem advance {q : Unit → Parse σ β} (hc : c.ahead = t :: rest)
    (hq : ∀ d, c.Passes [t] d → d.ahead = rest → Reaches context (q ()) d us after v) :
    Reaches context (Parse.advance >>= q) c (t :: us) after v := by
  obtain ⟨hpasses, hahead⟩ := Cursor.passes_cons hc
  have hstep : Reaches context Parse.advance c [t] rest () :=
    .inr ⟨c.next, rfl, hpasses, hahead⟩
  exact hstep.bind hq

/-- Line breaks are skipped if no other one follows. -/
theorem skipNewlines {q : Unit → Parse σ β} (hc : c.ahead = nl ++ rest) (hnl : Newlines nl)
    (hrest : headKind rest ≠ some .newline)
    (hq : ∀ d, c.Passes nl d → d.ahead = rest → Reaches context (q ()) d us after v) :
    Reaches context (Parse.skipNewlines >>= q) c (nl ++ us) after v := by
  obtain ⟨hpasses, hahead⟩ := c.passes_skip_of_ahead hc hnl (headKind_not_newline hrest)
  exact bind (.inr ⟨c.skipNewlines, rfl, hpasses, hahead⟩) hq

/-- A token that is there may be expected. -/
theorem expect {kind : Kind} {expected : Expectation} {q : σ → Parse σ β} (hc : c.ahead = t :: rest)
    (ht : t.kind = kind)
    (hq : ∀ d, c.Passes [t] d → d.ahead = rest → Reaches context (q t.span) d us after v) :
    Reaches context (Parse.expect kind expected >>= q) c (t :: us) after v := by
  obtain ⟨hpasses, hahead⟩ := Cursor.passes_cons hc
  have hkind : c.kind? = some kind := (Cursor.kind?_cons hc).trans (congrArg some ht)
  have hrun : (Parse.expect kind expected).run context c = .done t.span c.next := by
    rw [run_expect_of_eq hkind, Cursor.place_cons _ hc]
  have hstep : Reaches context _ c [t] rest _ := .inr ⟨c.next, hrun, hpasses, hahead⟩
  exact hstep.bind hq

/-- The symbol asked for is passed, and the rest is read behind it. -/
theorem symbol {s : Symbol} {q : σ → Parse σ β} (hc : c.ahead = t :: rest)
    (ht : t.kind = .symbol s)
    (hq : ∀ d, c.Passes [t] d → d.ahead = rest → Reaches context (q t.span) d us after v) :
    Reaches context (Parse.symbol s >>= q) c (t :: us) after v :=
  expect hc ht hq

/-- The closer asked for is passed, and the rest is read behind it. -/
theorem closeAs {construct : Construct} {expected : Expectation} {opener : σ} {q : σ → Parse σ β}
    (hc : c.ahead = t :: rest) (ht : t.kind = .symbol construct.closer)
    (hq : ∀ d, c.Passes [t] d → d.ahead = rest → Reaches context (q t.span) d us after v) :
    Reaches context (Parse.closeAs construct expected opener >>= q) c (t :: us) after v := by
  have hexpect : Reaches context
      (Parse.expect (.symbol construct.closer) expected >>= q) c (t :: us) after v :=
    expect hc ht hq
  unfold Reaches at hexpect ⊢
  rw [run_bind, run_closeAs_of_some (Cursor.kind?_cons hc), ← run_bind]
  exact hexpect

/-- The closer closes its construct. -/
theorem close {construct : Construct} {opener : σ} {q : σ → Parse σ β} (hc : c.ahead = t :: rest)
    (ht : t.kind = .symbol construct.closer)
    (hq : ∀ d, c.Passes [t] d → d.ahead = rest → Reaches context (q t.span) d us after v) :
    Reaches context (Parse.close construct opener >>= q) c (t :: us) after v :=
  closeAs hc ht hq

/-- The name asked for is passed, and the rest is read behind it. -/
theorem name {text : String} {expected : Expectation} {q : Ident σ → Parse σ β}
    (hc : c.ahead = t :: rest) (ht : t.kind = .name text)
    (hq : ∀ d, c.Passes [t] d → d.ahead = rest →
      Reaches context (q ⟨text, t.span⟩) d us after v) :
    Reaches context (Parse.name expected >>= q) c (t :: us) after v := by
  obtain ⟨hpasses, hahead⟩ := Cursor.passes_cons hc
  have hrun : (Parse.name expected).run context c = .done ⟨text, t.span⟩ c.next := by
    unfold Parse.name
    rw [run_peek_bind, Cursor.kind?_cons hc, ht, run_place_bind, run_advance_bind, run_pure,
      Cursor.place_cons _ hc]
  have hstep : Reaches context _ c [t] rest _ := .inr ⟨c.next, hrun, hpasses, hahead⟩
  exact hstep.bind hq

/-- A look at the token ahead. -/
theorem peek {k : Option Kind} {q : Option Kind → Parse σ β} (hk : c.kind? = k)
    (hq : Reaches context (q k) c us after v) :
    Reaches context (Parse.peek >>= q) c us after v := by
  rw [← hk] at hq
  exact hq

theorem place {here : σ} {q : σ → Parse σ β} (hplace : c.place context.finish = here)
    (hq : Reaches context (q here) c us after v) :
    Reaches context (Parse.place >>= q) c us after v := by
  rw [← hplace] at hq
  exact hq

theorem since [Location σ] {first whole : σ} {q : σ → Parse σ β} (hsince : c.since first = whole)
    (hq : Reaches context (q whole) c us after v) :
    Reaches context (Parse.since first >>= q) c us after v := by
  rw [← hsince] at hq
  exact hq

/-- Separators are skipped if no other one follows. -/
theorem skipSeparators {seps : List (Token σ)} {q : Unit → Parse σ β}
    (hc : c.ahead = seps ++ rest) (hseps : Separators seps)
    (hrest : ∀ k, headKind rest = some k → k ≠ .newline ∧ k ≠ .symbol .semicolon)
    (hq : ∀ d, c.Passes seps d → d.ahead = rest → Reaches context (q ()) d us after v) :
    Reaches context (Parse.skipSeparators >>= q) c (seps ++ us) after v := by
  have hstop : ∀ k, headKind rest = some k →
      (k == .newline || k == .symbol .semicolon) = false := by
    intro k hk
    obtain ⟨hnewline, hsemicolon⟩ := hrest k hk
    simp [hnewline, hsemicolon]
  obtain ⟨hpasses, hahead⟩ := c.passes_skip_of_ahead hc hseps hstop
  exact bind (.inr ⟨c.skipSeparators, rfl, hpasses, hahead⟩) hq

/-- A look past line breaks stays where it is. -/
theorem peekPastNewlines {k : Option Kind} {q : Option Kind → Parse σ β}
    (hk : headKindPastNewlines c.ahead = k) (hq : Reaches context (q k) c us after v) :
    Reaches context (Parse.peekPastNewlines >>= q) c us after v := by
  rw [← hk] at hq
  exact hq

theorem takesArguments {name : String} {b : Bool} {q : Bool → Parse σ β}
    (hb : decide (name ∈ context.calls) = b) (hq : Reaches context (q b) c us after v) :
    Reaches context (Parse.takesArguments name >>= q) c us after v := by
  rw [← hb] at hq
  exact hq

theorem touching {b : Bool} {q : Bool → Parse σ β} (hb : c.touching = b)
    (hq : Reaches context (q b) c us after v) :
    Reaches context (Parse.touching >>= q) c us after v := by
  rw [← hb] at hq
  exact hq

end Reaches

end CallGrammar
