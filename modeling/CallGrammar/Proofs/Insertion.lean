import CallGrammar.Proofs.Reading

/-!
# CallGrammar.Proofs.Insertion

One token put before each of the marked ones of a vector.  Tokens with it before them are the
append of what each of them becomes (`put_append`), so a phrase and what follows it are told
apart: the token before what follows (`lead`) may be read with the phrase.

Nothing of the tokens but whether a marked one touches the token before it is changed, and the
last one stays the last (`getLast?_put`).
-/

namespace CallGrammar

variable {σ : Type}

/-- A token to put before the marked ones, and whether these touch it. -/
structure Insertion (σ : Type) where
  added : Token σ
  marked : Token σ → Bool
  touches : Token σ → Bool

namespace Insertion

variable (w : Insertion σ)

/-- What is put before a token. -/
def mark (t : Token σ) : List (Token σ) := if w.marked t then [w.added] else []

/-- A token behind what is put before it. -/
def place (t : Token σ) : Token σ :=
  ⟨t.kind, t.span, if w.marked t then w.touches t else t.touching⟩

/-- Put the token before the marked ones. -/
def put : List (Token σ) → List (Token σ)
  | [] => []
  | t :: ts => w.mark t ++ w.place t :: put ts

/-- What is put before the first of the tokens. -/
def lead : List (Token σ) → List (Token σ)
  | [] => []
  | t :: _ => w.mark t

/-- Put the token before the marked ones behind the first. -/
def body : List (Token σ) → List (Token σ)
  | [] => []
  | t :: ts => w.place t :: w.put ts

variable {w} {t : Token σ} {inside ts us rest : List (Token σ)} {p : Kind → Bool}

/-! ## one token -/

theorem mark_of_unmarked (h : w.marked t = false) : w.mark t = [] := by
  rw [mark, h, if_neg Bool.false_ne_true]

theorem marked_of_mark (h : w.mark t ≠ []) : w.marked t = true := by
  rw [← Bool.not_eq_false]
  exact fun hnot => h (mark_of_unmarked hnot)

/-- A token that nothing is put before stays as it is. -/
theorem place_of_mark (h : w.mark t = []) : w.place t = t := by
  have hnot : w.marked t = false := by
    rw [← Bool.not_eq_true]
    intro hmarked
    rw [mark, if_pos hmarked] at h
    cases h
  simp [place, hnot]

theorem all_mark (h : p w.added.kind = true) (t : Token σ) : AllKinds p (w.mark t) := by
  unfold mark
  split
  · exact .cons h .nil
  · exact .nil

/-! ## runs of tokens -/

@[simp] theorem put_nil : w.put [] = [] := rfl

/-- The tokens are what is put before the first, and the rest. -/
theorem put_eq (ts : List (Token σ)) : w.put ts = w.lead ts ++ w.body ts := by
  cases ts <;> rfl

/-- Two runs are put one after the other. -/
theorem put_append (ts us : List (Token σ)) : w.put (ts ++ us) = w.put ts ++ w.put us := by
  induction ts with
  | nil => rfl
  | cons t ts ih => simp [put, ih]

/-- A token that nothing is put before stays first. -/
theorem put_cons (h : w.mark t = []) : w.put (t :: ts) = t :: w.put ts := by
  rw [put, h, place_of_mark h, List.nil_append]

/-- Where nothing is put before the first token, the rest is all. -/
theorem put_of_lead (h : w.lead ts = []) : w.put ts = w.body ts := by
  rw [put_eq, h, List.nil_append]

/-- Behind the first of some tokens, those of another run are put as they are alone. -/
theorem body_append (h : ts ≠ []) (us : List (Token σ)) :
    w.body (ts ++ us) = w.body ts ++ w.put us := by
  cases ts with
  | nil => exact absurd rfl h
  | cons t ts => simp [body, put_append]

/-- Before the first token there is nothing, or the token that is put. -/
theorem lead_eq (ts : List (Token σ)) : w.lead ts = [] ∨ w.lead ts = [w.added] := by
  cases ts with
  | nil => exact .inl rfl
  | cons t ts =>
    by_cases ht : w.marked t = true
    · exact .inr (if_pos ht)
    · exact .inl (if_neg ht)

/-- Tokens of which none is marked stay as they are. -/
theorem put_of_mark (h : ∀ t ∈ ts, w.mark t = []) : w.put ts = ts := by
  induction ts with
  | nil => rfl
  | cons t ts ih =>
    rw [put_cons (h t List.mem_cons_self), ih fun u hu => h u (List.mem_cons_of_mem t hu)]

/-- The tokens with one of them marked. -/
theorem put_of_single (hnodup : (inside ++ t :: rest).Nodup) (ht : w.marked t = true)
    (honly : ∀ u, w.marked u = true → u = t) :
    w.put (inside ++ t :: rest) = inside ++ w.added :: w.place t :: rest := by
  rw [List.nodup_append, List.nodup_cons] at hnodup
  obtain ⟨-, ⟨hrest, -⟩, hinside⟩ := hnodup
  have hother {u : Token σ} (hne : u ≠ t) : w.mark u = [] :=
    mark_of_unmarked (Bool.eq_false_iff.2 fun hu => hne (honly u hu))
  have hbefore : w.put inside = inside :=
    put_of_mark fun u hu => hother (hinside u hu t List.mem_cons_self)
  have hafter : w.put rest = rest :=
    put_of_mark fun u hu => hother fun heq => hrest (heq ▸ hu)
  rw [put_append, hbefore, put, hafter, mark, if_pos ht, List.singleton_append]

theorem all_lead (h : p w.added.kind = true) (ts : List (Token σ)) : AllKinds p (w.lead ts) := by
  cases ts with
  | nil => exact .nil
  | cons t ts => exact all_mark h t

/-- The tokens are of the kinds that they were of, if the one that is put is of them too. -/
theorem all_put (hp : p w.added.kind = true) (h : AllKinds p ts) : AllKinds p (w.put ts) := by
  induction ts with
  | nil => exact h
  | cons t ts ih => exact (all_mark hp t).append (.cons h.head (ih h.tail))

/-! ## what is seen of the tokens -/

theorem headKind_body (ts : List (Token σ)) : headKind (w.body ts) = headKind ts := by
  cases ts <;> rfl

/-- The first token is as before, or the one that is put there is first. -/
theorem head_put (ts : List (Token σ)) :
    (w.put ts).head? = ts.head? ∨ (w.put ts).head? = some w.added := by
  cases ts with
  | nil => exact .inl rfl
  | cons t ts =>
    obtain hlead | hlead := w.lead_eq (t :: ts)
    · rw [put_cons hlead]
      exact .inl rfl
    · rw [put_eq, hlead]
      exact .inr rfl

/-- The first kind is what it was, or that of the token that is put. -/
theorem headKind_put (ts : List (Token σ)) :
    headKind (w.put ts) = headKind ts ∨ headKind (w.put ts) = some w.added.kind := by
  obtain hhead | hhead := w.head_put ts
  · exact .inl (by rw [headKind, headKind, hhead])
  · exact .inr (by rw [headKind, hhead, Option.map_some])

theorem head_put_of_lead (h : w.lead ts = []) : (w.put ts).head? = ts.head? := by
  cases ts with
  | nil => rfl
  | cons t ts => rw [put_cons h, List.head?_cons, List.head?_cons]

theorem headKind_put_of_lead (h : w.lead ts = []) : headKind (w.put ts) = headKind ts := by
  rw [headKind, headKind, head_put_of_lead h]

theorem headTouches_put_of_lead (h : w.lead ts = []) :
    headTouches (w.put ts) = headTouches ts := by
  rw [headTouches, headTouches, head_put_of_lead h]

/-- Where nothing is put before the first token, the tokens begin where they did. -/
theorem place_put_of_lead (h : w.lead ts = []) (finish : σ) :
    (Cursor.start (w.put ts)).place finish = (Cursor.start ts).place finish := by
  rw [Cursor.place, Cursor.place, Cursor.start, Cursor.start, head_put_of_lead h]

/-- The last token is the same one. -/
theorem getLast?_put (ts : List (Token σ)) : (w.put ts).getLast? = ts.getLast?.map w.place := by
  induction ts with
  | nil => rfl
  | cons t ts ih =>
    rw [put, List.getLast?_append, List.getLast?_cons, ih, List.getLast?_cons]
    cases ts.getLast? <;> rfl

/-- So a place that reaches to the end of the tokens is the same. -/
theorem through_put [Location σ] (first : σ) (ts : List (Token σ)) :
    through first (w.put ts) = through first ts := by
  rw [through, through, getLast?_put]
  cases ts.getLast? <;> rfl

theorem through_body [Location σ] (first : σ) (ts : List (Token σ)) :
    through first (w.body ts) = through first ts := by
  rw [← through_put (w := w) first ts]
  cases ts with
  | nil => rfl
  | cons t ts =>
    rw [through, through, put_eq, List.getLast?_append, body, List.getLast?_cons]
    rfl

end Insertion

end CallGrammar
