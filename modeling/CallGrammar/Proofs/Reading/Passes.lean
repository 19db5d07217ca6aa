import CallGrammar.Proofs.Arguments
import CallGrammar.Proofs.Reading

/-!
# CallGrammar.Proofs.Reading.Passes

The tokens that a cursor goes past, and what a step that succeeded went past.
-/

namespace CallGrammar

variable {σ α β : Type}

/-! ## positions -/

/-- The cursor goes past the tokens `ts`. -/
def Cursor.Passes (c : Cursor σ) (ts : List (Token σ)) (c' : Cursor σ) : Prop :=
  c.ahead = ts ++ c'.ahead ∧ c'.passed = ts.reverse ++ c.passed

namespace Cursor

variable {c d e : Cursor σ} {ts us : List (Token σ)}

theorem Passes.refl (c : Cursor σ) : c.Passes [] c := ⟨rfl, rfl⟩

/-- Tokens that are passed on the way and then. -/
theorem Passes.trans (h : c.Passes ts d) (h' : d.Passes us e) : c.Passes (ts ++ us) e := by
  constructor
  · rw [h.1, h'.1, List.append_assoc]
  · rw [h'.2, h.2, List.reverse_append, List.append_assoc]

/-- One token before more of them. -/
theorem Passes.cons {t : Token σ} (h : c.Passes [t] d) (h' : d.Passes us e) :
    c.Passes (t :: us) e :=
  h.trans h'

/-- A cursor on a token passes it. -/
theorem passes_next {k : Kind} (h : c.kind? = some k) :
    ∃ t, c.Passes [t] c.next ∧ t.kind = k ∧ t.touching = c.touching ∧
      ∀ finish, c.place finish = t.span := by
  obtain ⟨passed, ahead⟩ := c
  cases ahead with
  | nil => cases h
  | cons t ts => exact ⟨t, ⟨rfl, rfl⟩, Option.some.inj h, rfl, fun _ => rfl⟩

/-- What is skipped is all of the skipped kind, and another kind comes next. -/
theorem passes_skip (p : Kind → Bool) (c : Cursor σ) :
    ∃ ts, c.Passes ts (c.skip p) ∧ AllKinds p ts ∧
      ∀ k, (c.skip p).kind? = some k → p k = false := by
  have hall : AllKinds p (c.ahead.takeWhile (p ·.kind)) := by
    intro t ht
    have hfilter := List.all_takeWhile (l := c.ahead) (p := fun t => p t.kind)
    exact List.all_eq_true.1 hfilter t ht
  have hstop : ∀ k, (c.skip p).kind? = some k → p k = false := by
    intro k hk
    have hhead := List.head?_dropWhile_not (fun t : Token σ => p t.kind) c.ahead
    cases hd : (c.ahead.dropWhile (p ·.kind)).head? with
    | none => simp [kind?, skip, hd] at hk
    | some t =>
      rw [hd] at hhead
      simp only [kind?, skip, hd, Option.map_some, Option.some.injEq] at hk
      simpa [← hk] using hhead
  have hpasses : c.Passes (c.ahead.takeWhile (p ·.kind)) (c.skip p) :=
    ⟨List.takeWhile_append_dropWhile.symm, rfl⟩
  exact ⟨_, hpasses, hall, hstop⟩

/-- Skipping line breaks passes all of them. -/
theorem passes_skipNewlines (c : Cursor σ) :
    ∃ nl, c.Passes nl c.skipNewlines ∧ Newlines nl ∧ c.skipNewlines.kind? ≠ some .newline := by
  obtain ⟨nl, hpasses, hall, hstop⟩ := c.passes_skip (· == .newline)
  exact ⟨nl, hpasses, hall, fun h => by simpa using hstop _ h⟩

/-- The place up to the last of the tokens passed. -/
theorem Passes.since [Location σ] (h : c.Passes ts d) (hne : ts ≠ []) (first : σ) :
    d.since first = through first ts := by
  unfold Cursor.since through
  rw [h.2, List.getLast?_eq_head?_reverse]
  cases hr : ts.reverse with
  | nil => exact absurd (List.reverse_eq_nil_iff.1 hr) hne
  | cons t us => rfl

end Cursor

/-! ## steps that succeeded -/

namespace Parse

variable {context : Context σ} {c c' : Cursor σ}

/-- A value of two parsers one after the other: the first had one. -/
theorem bind_done {p : Parse σ α} {q : α → Parse σ β} {v : β}
    (h : (p >>= q).run context c = .done v c') :
    ∃ u d, p.run context c = .done u d ∧ (q u).run context d = .done v c' := by
  rw [run_bind] at h
  cases hp : p.run context c with
  | done u d => rw [hp] at h; exact ⟨u, d, rfl, h⟩
  | failed e d => rw [hp] at h; cases h
  | exhausted => rw [hp] at h; cases h

/-- An expected token was there, and its place is the value. -/
theorem expect_done {kind : Kind} {expected : Expectation} {v : σ}
    (h : (expect kind expected).run context c = .done v c') :
    ∃ t, c.Passes [t] c' ∧ t.kind = kind ∧ v = t.span := by
  unfold expect at h
  rw [run_peek_bind] at h
  split at h
  · next hk =>
    obtain ⟨t, hpasses, ht, -, hplace⟩ := Cursor.passes_next hk
    rw [run_place_bind, run_advance_bind, run_pure, hplace] at h
    cases h
    exact ⟨t, hpasses, ht, rfl⟩
  · cases h

theorem closeAs_done {construct : Construct} {expected : Expectation} {opener v : σ}
    (h : (closeAs construct expected opener).run context c = .done v c') :
    ∃ t, c.Passes [t] c' ∧ t.kind = .symbol construct.closer ∧ v = t.span := by
  unfold closeAs at h
  rw [run_peek_bind] at h
  split at h
  · cases h
  · exact expect_done h

/-- The closer was there, and its place is the value. -/
theorem close_done {construct : Construct} {opener v : σ}
    (h : (close construct opener).run context c = .done v c') :
    ∃ t, c.Passes [t] c' ∧ t.kind = .symbol construct.closer ∧ v = t.span := by
  rw [close_eq_closeAs] at h
  exact closeAs_done h

/-- A name was there, with its text and place. -/
theorem name_done {expected : Expectation} {v : Ident σ}
    (h : (name expected).run context c = .done v c') :
    ∃ t text, c.Passes [t] c' ∧ t.kind = .name text ∧ v = ⟨text, t.span⟩ := by
  unfold name at h
  rw [run_peek_bind] at h
  split at h
  · next text hk =>
    obtain ⟨t, hpasses, ht, -, hplace⟩ := Cursor.passes_next hk
    rw [run_place_bind, run_advance_bind, run_pure, hplace] at h
    cases h
    exact ⟨t, text, hpasses, ht, rfl⟩
  · cases h

end Parse

end CallGrammar
