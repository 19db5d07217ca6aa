import CallGrammar.Proofs.Reading
import CallGrammar.Proofs.Sorted

/-!
# CallGrammar.Proofs.Extent

The spans of statements and expressions: each reaches from the start of the first
token it was read from to the end of the last one.

The one fact about spans is `Covers.merge`: of two runs of tokens in order, the
join of their spans covers both and what stands between them.
-/

namespace CallGrammar

/-! ## spans of runs -/

/-- The span reaches from the start of the first token to the end of the last. -/
def Covers (s : Span) (ts : List (Token Span)) : Prop :=
  ∃ t u, ts.head? = some t ∧ ts.getLast? = some u ∧ s = ⟨t.span.start, u.span.stop⟩

namespace Covers

variable {a b : Span} {t : Token Span} {ts us : List (Token Span)}

/-- One token covers its own span. -/
theorem single (t : Token Span) : Covers t.span [t] := ⟨t, t, rfl, rfl, rfl⟩

/-- From the start of one run to the end of another behind it. -/
theorem merge (mid : List (Token Span)) (hs : Sorted (ts ++ (mid ++ us))) (ha : Covers a ts)
    (hb : Covers b us) : Covers (Location.merge a b) (ts ++ (mid ++ us)) := by
  obtain ⟨t, u, ht, hu, rfl⟩ := ha
  obtain ⟨t', u', ht', hu', rfl⟩ := hb
  have hhead : (ts ++ (mid ++ us)).head? = some t := by rw [List.head?_append, ht, Option.some_or]
  have hlast : (ts ++ (mid ++ us)).getLast? = some u' := by
    rw [List.getLast?_append, List.getLast?_append, hu', Option.some_or, Option.some_or]
  have htmem : t ∈ ts := List.mem_of_head? ht
  have humem : u ∈ ts := List.mem_of_getLast? hu
  have hu'mem : u' ∈ us := List.mem_of_getLast? hu'
  have ht'mem : t' ∈ us := List.mem_of_head? ht'
  have hstart : t.span.start ≤ t'.span.start := by
    have hle := hs.stop_le_start htmem (List.mem_append_right mid ht'mem)
    have hlt := hs.nonempty t (List.mem_append_left _ htmem)
    omega
  have hstop : u.span.stop ≤ u'.span.stop := by
    have hle := hs.stop_le_start humem (List.mem_append_right mid hu'mem)
    have hlt := hs.nonempty u' (List.mem_append_right _ (List.mem_append_right mid hu'mem))
    omega
  refine ⟨t, u', hhead, hlast, ?_⟩
  change Span.merge _ _ = _
  rw [Span.merge, Nat.min_eq_left hstart, Nat.max_eq_right hstop]

/-- The span up to the last of some more tokens. -/
theorem through (hs : Sorted (ts ++ us)) (ha : Covers a ts) (hne : us ≠ []) :
    Covers (CallGrammar.through a us) (ts ++ us) := by
  obtain ⟨mid, u, rfl⟩ : ∃ mid u, us = mid ++ [u] :=
    ⟨us.dropLast, us.getLast hne, (List.dropLast_concat_getLast hne).symm⟩
  have hthrough : CallGrammar.through a (mid ++ [u]) = Location.merge a u.span := by
    rw [CallGrammar.through, List.getLast?_concat]
  rw [hthrough]
  exact ha.merge mid hs (single u)

/-- From a first token up to a last one. -/
theorem brackets {opener closer : Token Span} {mid : List (Token Span)}
    (hs : Sorted (opener :: (mid ++ [closer]))) :
    Covers (Location.merge opener.span closer.span) (opener :: (mid ++ [closer])) :=
  (single opener).merge mid hs (single closer)

/-- A run that goes on past the covered one has another span. -/
theorem not_covers_append (hs : Sorted (ts ++ us)) (ha : Covers a (ts ++ us)) (hne : us ≠ []) :
    ¬ Covers a ts := by
  rintro ⟨t, u, -, hu, rfl⟩
  obtain ⟨t', v, -, hv, heq⟩ := ha
  have hv : us.getLast? = some v := by
    rw [List.getLast?_append, List.getLast?_eq_some_getLast hne, Option.some_or] at hv
    rw [List.getLast?_eq_some_getLast hne]
    exact hv
  have humem : u ∈ ts := List.mem_of_getLast? hu
  have hvmem : v ∈ us := List.mem_of_getLast? hv
  have hle := hs.stop_le_start humem hvmem
  have hlt := hs.nonempty v (List.mem_append_right ts hvmem)
  have hstop : u.span.stop = v.span.stop := (Span.mk.inj heq).2
  omega

/-- What covers tokens starts where the first does. -/
theorem start_eq (h : Covers a (t :: ts)) : a.start = t.span.start := by
  obtain ⟨u, v, hu, -, rfl⟩ := h
  cases hu
  rfl

/-- The tokens of a run lie within its span. -/
theorem bounds (hs : Sorted ts) (h : Covers a ts) (ht : t ∈ ts) :
    a.start ≤ t.span.start ∧ t.span.stop ≤ a.stop := by
  obtain ⟨u, v, hu, hv, rfl⟩ := h
  obtain ⟨us, rfl⟩ := List.head?_eq_some_iff.1 hu
  obtain ⟨vs, hvs⟩ := List.getLast?_eq_some_iff.1 hv
  constructor
  · obtain rfl | ht := List.mem_cons.1 ht
    · exact Nat.le_refl _
    · have hle := (List.pairwise_cons.1 hs.ordered).1 t ht
      have hlt := hs.nonempty u List.mem_cons_self
      exact Nat.le_of_lt (Nat.lt_of_lt_of_le hlt hle)
  · have hmem : v ∈ u :: us := List.mem_of_getLast? hv
    rw [hvs] at ht hs
    obtain ht | ht := List.mem_append.1 ht
    · have hle := hs.stop_le_start ht (List.mem_singleton_self v)
      have hlt := hs.nonempty v (List.mem_append_right vs (List.mem_singleton_self v))
      exact Nat.le_of_lt (Nat.lt_of_le_of_lt hle hlt)
    · exact Nat.le_of_eq (by rw [List.mem_singleton.1 ht])

/-- What covers tokens in order is not empty. -/
theorem nonempty (hs : Sorted ts) (h : Covers a ts) : a.start < a.stop := by
  have hcovers := h
  obtain ⟨t, -, ht, -, -⟩ := h
  have ht : t ∈ ts := List.mem_of_head? ht
  obtain ⟨hstart, hstop⟩ := hcovers.bounds hs ht
  have hlt := hs.nonempty t ht
  omega

/-- A run of tokens has one span. -/
theorem unique (ha : Covers a ts) (hb : Covers b ts) : a = b := by
  obtain ⟨t, u, ht, hu, rfl⟩ := ha
  obtain ⟨t', u', ht', hu', rfl⟩ := hb
  rw [Option.some.inj (ht.symm.trans ht'), Option.some.inj (hu.symm.trans hu')]

/-- Among tokens in order a span covers one run. -/
theorem run_unique {before before' rest rest' us' : List (Token Span)}
    (hs : Sorted (before ++ (us ++ rest)))
    (heq : before ++ (us ++ rest) = before' ++ (us' ++ rest')) (h : Covers a us)
    (h' : Covers a us') : before' = before ∧ us' = us ∧ rest' = rest := by
  obtain ⟨t, u, ht, hu, rfl⟩ := h
  obtain ⟨t', u', ht', hu', hspan⟩ := h'
  obtain ⟨hstart, hstop⟩ := Span.mk.inj hspan
  have hmem : ∀ v, v ∈ us → v ∈ before ++ (us ++ rest) := by simp +contextual
  have hmem' : ∀ v, v ∈ us' → v ∈ before ++ (us ++ rest) := by rw [heq]; simp +contextual
  have htpos := hs.nonempty t (hmem t (List.mem_of_head? ht))
  have htpos' := hs.nonempty t' (hmem' t' (List.mem_of_head? ht'))
  have hupos := hs.nonempty u (hmem u (List.mem_of_getLast? hu))
  have hupos' := hs.nonempty u' (hmem' u' (List.mem_of_getLast? hu'))
  -- the first tokens are one, and so are the last
  obtain rfl : t = t' := hs.eq_of_overlap (hmem t (List.mem_of_head? ht))
    (hmem' t' (List.mem_of_head? ht')) (by omega) (by omega)
  obtain rfl : u = u' := hs.eq_of_overlap (hmem u (List.mem_of_getLast? hu))
    (hmem' u' (List.mem_of_getLast? hu')) (by omega) (by omega)
  obtain ⟨vs, hvs⟩ := List.head?_eq_some_iff.1 ht
  obtain ⟨vs', hvs'⟩ := List.head?_eq_some_iff.1 ht'
  have hnodup := hs.nodup
  obtain rfl : before' = before := by
    have heq := heq
    rw [hvs] at hnodup
    rw [hvs, hvs'] at heq
    exact append_cons_inj_of_nodup hnodup heq
  obtain ⟨ws, rfl⟩ := List.getLast?_eq_some_iff.1 hu
  obtain ⟨ws', rfl⟩ := List.getLast?_eq_some_iff.1 hu'
  have heq := List.append_cancel_left heq
  rw [List.append_assoc, List.append_assoc] at heq
  have hnodup := (List.nodup_append.1 hnodup).2.1
  rw [List.append_assoc] at hnodup
  obtain rfl := append_cons_inj_of_nodup hnodup heq
  exact ⟨rfl, rfl, (List.cons.inj (List.append_cancel_left heq)).2.symm⟩

/-- From the first token through all of them. -/
theorem whole (hs : Sorted (t :: ts)) :
    Covers (CallGrammar.through t.span (t :: ts)) (t :: ts) := by
  cases ts with
  | nil => exact ⟨t, t, rfl, rfl, by simp [CallGrammar.through, Location.merge, Span.merge]⟩
  | cons u us =>
    have hlast : CallGrammar.through t.span (t :: u :: us)
        = CallGrammar.through t.span (u :: us) := by
      rw [CallGrammar.through, List.getLast?_cons_cons]
      rfl
    rw [hlast]
    exact (single t).through hs (List.cons_ne_nil u us)

end Covers

/-- Whatever run the span `a` covers, `b` covers it with the tokens `ts` added. -/
def Grows (a b : Span) (ts : List (Token Span)) : Prop :=
  ∀ us, Sorted (us ++ ts) → Covers a us → Covers b (us ++ ts)

namespace Grows

variable {a b c : Span} {ts us : List (Token Span)}

theorem refl (a : Span) : Grows a a [] := by
  intro us _ ha
  rw [List.append_nil]
  exact ha

/-- A value that grows over two runs grows over both. -/
theorem trans (h : Grows a b ts) (h' : Grows b c us) : Grows a c (ts ++ us) := by
  intro ws hs ha
  rw [← List.append_assoc] at hs ⊢
  exact h' _ hs (h ws hs.left ha)

theorem merge (ts : List (Token Span)) (hb : Covers b us) :
    Grows a (Location.merge a b) (ts ++ us) :=
  fun _ hs ha => ha.merge ts hs hb

theorem through (hne : ts ≠ []) : Grows a (CallGrammar.through a ts) ts :=
  fun _ hs ha => ha.through hs hne

end Grows

@[simp] theorem Expr.span_withSpan {σ : Type} (s : σ) (e : Expr σ) : (e.withSpan s).span = s := by
  cases e <;> rfl

/-! ## every phrase -/

/-- The value of the phrase covers its tokens; a phrase that goes on after a value
makes the span of the value grow by its tokens. -/
def Phrase.Extends : (p : Phrase Span) → List (Token Span) → p.Value → Prop
  | expression _, ts, v | operand, ts, v | primary, ts, v | callOrWord, ts, v =>
    Covers (Expr.span v) ts
  | operators _ first, ts, v | suffixes first, ts, v | continued first, ts, v =>
    Grows first.span (Expr.span v) ts
  | callOf callee, ts, v => Grows callee.span (Expr.span v) ts
  | statement, ts, v | conditional _, ts, v => Covers (Stmt.span v) ts
  | valueStatement first, ts, v => Grows first.span (Stmt.span v) ts
  | callable, ts, .statement stmt => Covers stmt.span ts
  | callable, ts, .value expr => Covers expr.span ts
  | _, _, _ => True

/-- Every phrase whose value has a place reaches over its tokens, and what goes on after a
value grows over them. -/
theorem Reads.extends {context : Context Span} {p : Phrase Span} {ts after : List (Token Span)}
    {v : p.Value} (h : Reads context p ts after v) : Sorted ts → p.Extends ts v := by
  induction h with
  | expression _ _ ihleft ihrest => exact fun hs => ihrest hs.right _ hs (ihleft hs.left)
  | @noOperator _ left => exact fun _ => .refl left.span
  | @operator _ left _ _ t _ nl _ _ _ _ _ _ _ _ ihright ihrest =>
    intro hs
    have hbinary := Grows.merge (a := left.span) (t :: nl) (ihright hs.tail.right.left)
    simpa [Phrase.Extends] using hbinary.trans (ihrest hs.tail.right.right)
  | @sign t _ _ _ _ _ _ ihinner =>
    exact fun hs => (Covers.single t).merge [] hs (ihinner hs.tail)
  | operand _ _ ihfirst ihrest => exact fun hs => ihrest hs.right _ hs (ihfirst hs.left)
  | @noSuffix target => exact fun _ => .refl target.span
  | method _ _ _ _ _ _ _ ihrest =>
    intro hs
    have hcall := (Grows.through (List.cons_ne_nil _ _)).trans (ihrest hs.tail.tail.right.right)
    simpa [Phrase.Extends] using hcall
  | @access target _ opener closer _ ts _ _ _ _ _ _ _ _ _ ihrest =>
    intro hs
    have hclose := Grows.merge (a := target.span) (opener :: ts) (Covers.single closer)
    simpa [Phrase.Extends] using hclose.trans (ihrest hs.tail.right.tail)
  | @var t => exact fun _ => .single t
  | @reference t => exact fun _ => .single t
  | @literal t => exact fun _ => .single t
  | name _ ih => exact ih
  | array => exact fun hs => .brackets hs
  | @hash opener closer _ nl ts =>
    intro hs
    change Covers _ (opener :: (nl ++ (ts ++ [closer])))
    rw [← List.append_assoc] at hs ⊢
    exact .brackets hs
  | @parentheses opener closer inner nl nl' ts =>
    intro hs
    change Covers (inner.withSpan _).span (opener :: (nl ++ (ts ++ (nl' ++ [closer]))))
    rw [Expr.span_withSpan]
    rw [← List.append_assoc ts, ← List.append_assoc] at hs ⊢
    exact .brackets hs
  | @word t => exact fun _ => .single t
  | @call t _ _ _ _ _ _ ih => exact fun hs => ih hs.tail [t] hs (.single t)
  | callOf hargs _ _ _ =>
    exact fun _ => .through (List.append_ne_nil_of_left_ne_nil hargs.opens.ne_nil _)
  | branching _ _ ih => exact ih
  | invocation _ ih => exact ih
  | callableValue _ _ ih ihstmt => exact fun hs => ihstmt hs.right _ hs (ih hs.left)
  | value _ _ _ ih ihstmt => exact fun hs => ihstmt hs.right _ hs (ih hs.left)
  | @assignment _ _ t nl _ _ _ _ _ _ ih => exact fun hs => .merge (t :: nl) (ih hs.tail.right)
  | @noAssignment value => exact fun _ => .refl value.span
  | @conditional _ t _ _ _ _ _ vs _ _ _ hthen _ _ _ _ =>
    intro hs
    have hne := List.append_ne_nil_of_left_ne_nil hthen.opens.ne_nil vs
    exact (Covers.single t).through hs (List.append_ne_nil_of_right_ne_nil _ hne)
  | @wholeCall t _ _ _ _ _ _ ts us _ _ _ _ _ ihcall ihrest =>
    intro hs
    have hfirst : Sorted ((t :: ts) ++ us) := hs
    exact ihrest hs.tail.right _ hs (ihcall hs.tail.left [t] hfirst.left (.single t))
  | @callValue t _ _ _ ts us _ _ _ _ _ ihcall ihrest =>
    intro hs
    have hfirst : Sorted ((t :: ts) ++ us) := hs
    exact ihrest hs.tail.right _ hs (ihcall hs.tail.left [t] hfirst.left (.single t))
  | @bareCall t _ _ _ _ _ _ hargs _ _ =>
    exact fun hs => (Covers.single t).through hs hargs.opens.ne_nil
  | @wordValue t _ _ _ _ _ _ _ _ ihrest => exact fun hs => ihrest hs.tail [t] hs (.single t)
  | continued _ _ ihleft ihrest => exact fun hs => (ihleft hs.left).trans (ihrest hs.right)
  | _ => exact fun _ => trivial

end CallGrammar
