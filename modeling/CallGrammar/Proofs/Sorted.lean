import CallGrammar.Token.Stream

/-!
# CallGrammar.Proofs.Sorted

The tokens of a text cover some bytes each, follow one another, and are made of whole
characters of it.  The first two come from one fact about the token table: no rule matches
the empty text.
-/

namespace CallGrammar

/-! ## rules match something -/

/-- A pattern that does not take the empty text takes at least one character. -/
theorem Pattern.longest_pos {p : Pattern} {cs : List Char} {n : Nat} (hp : p.nullable = false)
    (h : p.longest cs = some n) : 0 < n := by
  cases cs with
  | nil => simp [longest, hp] at h
  | cons c cs =>
    simp only [longest, hp] at h
    split at h
    · cases h
    · split at h
      · cases h
        omega
      · cases h

namespace Rule

/-- A rule with such a pattern reaches at least one character far. -/
theorem reach_pos {r : Rule} {cs : List Char} {n : Nat} (hr : r.pattern.nullable = false)
    (h : r.reach cs = some n) : 0 < n := by
  unfold reach at h
  split at h
  · cases h
  · next m hm =>
    have hpos := Pattern.longest_pos hr hm
    split at h
    · cases h
    · cases h
      exact hpos

/-- So does the best of such rules. -/
theorem best_pos {rules : List Rule} {cs : List Char} {r : Rule} {n : Nat}
    (hrules : ∀ r ∈ rules, r.pattern.nullable = false) (h : best rules cs = some (r, n)) :
    0 < n := by
  induction rules generalizing r n with
  | nil => cases h
  | cons r' rs ih =>
    have hr : r'.pattern.nullable = false := hrules r' List.mem_cons_self
    have hrs : ∀ r ∈ rs, r.pattern.nullable = false :=
      fun r hmem => hrules r (List.mem_cons_of_mem r' hmem)
    unfold best at h
    split at h
    · exact ih hrs h
    · next m hm _ =>
      cases h
      exact reach_pos hr hm
    · next m r'' m' hm hm' =>
      split at h
      · cases h
        exact ih hrs hm'
      · cases h
        exact reach_pos hr hm

/-- No rule of the table takes the empty text, so a token is never empty. -/
theorem nullable_of_mem_table : ∀ r ∈ table, r.pattern.nullable = false := by
  have hall : table.all (fun r => !r.pattern.nullable) = true := by decide
  intro r hr
  have hr := List.all_eq_true.1 hall r hr
  simpa using hr

end Rule

/-! ## tokens in order -/

/-- Each token covers some bytes, and ends where the next one begins or before. -/
structure Sorted (ts : List (Token Span)) : Prop where
  nonempty : ∀ t ∈ ts, t.span.start < t.span.stop
  ordered : ts.Pairwise fun t u => t.span.stop ≤ u.span.start

namespace Sorted

variable {t : Token Span} {ts us : List (Token Span)}

/-- Leaving out tokens keeps them in order. -/
theorem of_sublist (h : Sorted us) (hsub : ts.Sublist us) : Sorted ts where
  nonempty t ht := h.nonempty t (hsub.subset ht)
  ordered := h.ordered.sublist hsub

theorem left (h : Sorted (ts ++ us)) : Sorted ts := h.of_sublist (List.sublist_append_left ts us)

theorem right (h : Sorted (ts ++ us)) : Sorted us := h.of_sublist (List.sublist_append_right ts us)

theorem tail (h : Sorted (t :: ts)) : Sorted ts := h.of_sublist (List.sublist_cons_self t ts)

/-- What stands before ends before. -/
theorem stop_le_start {u v : Token Span} (h : Sorted (ts ++ us)) (hu : u ∈ ts) (hv : v ∈ us) :
    u.span.stop ≤ v.span.start :=
  (List.pairwise_append.1 h.ordered).2.2 u hu v hv

/-- Tokens in order are all different, for each is longer than nothing. -/
theorem nodup (h : Sorted ts) : ts.Nodup := by
  refine h.ordered.imp_of_mem fun {t u} ht _ hle heq => ?_
  have hlt := h.nonempty t ht
  subst heq
  exact absurd (Nat.lt_of_lt_of_le hlt hle) (Nat.lt_irrefl _)

/-- Two tokens of which neither ends before the other begins are the same. -/
theorem eq_of_overlap {u : Token Span} (h : Sorted ts) (ht : t ∈ ts) (hu : u ∈ ts)
    (hstart : t.span.start < u.span.stop) (hstop : u.span.start < t.span.stop) : t = u := by
  obtain ⟨as, bs, rfl⟩ := List.append_of_mem ht
  obtain hu | hu := List.mem_append.1 hu
  · have hle := h.stop_le_start hu (List.mem_cons_self (a := t) (l := bs))
    omega
  obtain rfl | hu := List.mem_cons.1 hu
  · rfl
  · rw [List.append_cons] at h
    have hle := h.stop_le_start (List.mem_append_right as (List.mem_singleton_self t)) hu
    omega

end Sorted

/-- A token that is there once is at one place. -/
theorem append_cons_inj_of_nodup {α : Type} {as as' bs bs' : List α} {x : α}
    (h : (as ++ x :: bs).Nodup) (heq : as ++ x :: bs = as' ++ x :: bs') : as' = as := by
  rw [List.nodup_append, List.nodup_cons] at h
  obtain ⟨-, ⟨hbs, -⟩, has⟩ := h
  obtain ⟨cs, rfl, hcs⟩ | ⟨cs, rfl, hcs⟩ := List.append_eq_append_iff.1 heq
  · cases cs with
    | nil => exact List.append_nil as
    | cons c cs =>
      obtain ⟨rfl, rfl⟩ := List.cons.inj hcs
      exact absurd (List.mem_append_right cs List.mem_cons_self) hbs
  · cases cs with
    | nil => exact (List.append_nil as').symm
    | cons c cs =>
      obtain ⟨rfl, -⟩ := List.cons.inj hcs
      exact absurd rfl (has x (List.mem_append_right as' List.mem_cons_self) x List.mem_cons_self)

namespace Token

theorem firstPiece_pos (c : Char) (cs : List Char) : 0 < (firstPiece c cs).2 := by
  unfold firstPiece
  split
  · next rule n h => exact Rule.best_pos Rule.nullable_of_mem_table h
  · exact Nat.one_pos

theorem byteLength_pos (c : Char) (cs : List Char) : 0 < byteLength (c :: cs) := by
  have hc := Char.utf8Size_pos c
  rw [byteLength]
  omega

/-- The tokens from an offset on are in order, and begin after what is skipped. -/
theorem sorted_scan (skip offset : Nat) (touchable : Bool) (cs : List Char) :
    Sorted (scan skip offset touchable cs) ∧
      ∀ t ∈ scan skip offset touchable cs, offset + byteLength (cs.take skip) ≤ t.span.start := by
  induction cs generalizing skip offset touchable with
  | nil =>
    exact ⟨⟨fun _ h => absurd h List.not_mem_nil, .nil⟩, fun _ h => absurd h List.not_mem_nil⟩
  | cons c cs ih =>
    cases skip with
    | succ skip =>
      obtain ⟨hsorted, hstart⟩ := ih skip (offset + c.utf8Size) touchable
      refine ⟨hsorted, fun t ht => ?_⟩
      have hle := hstart t ht
      rw [List.take_succ_cons, byteLength]
      omega
    | zero =>
      have hpos := firstPiece_pos c cs
      unfold scan
      cases hpiece : firstPiece c cs with
      | mk found n =>
        rw [hpiece] at hpos
        obtain ⟨m, rfl⟩ : ∃ m, n = m + 1 := ⟨n - 1, (Nat.succ_pred_eq_of_pos hpos).symm⟩
        cases found with
        | none =>
          obtain ⟨hsorted, hstart⟩ := ih m (offset + c.utf8Size) false
          refine ⟨hsorted, fun t ht => ?_⟩
          have hle := hstart t ht
          rw [List.take_zero, byteLength]
          omega
        | some kind =>
          obtain ⟨hsorted, hstart⟩ := ih m (offset + c.utf8Size) kind.canBeTouched
          have hlen := byteLength_pos c (cs.take m)
          have hrest : ∀ t ∈ scan m (offset + c.utf8Size) kind.canBeTouched cs,
              offset + byteLength (c :: cs.take m) ≤ t.span.start := by
            intro t ht
            have hle := hstart t ht
            rw [byteLength]
            omega
          refine ⟨⟨?_, List.pairwise_cons.2 ⟨hrest, hsorted.ordered⟩⟩, ?_⟩
          · intro t ht
            obtain rfl | ht := List.mem_cons.1 ht
            · exact Nat.lt_add_of_pos_right hlen
            · exact hsorted.nonempty t ht
          · intro t ht
            obtain rfl | ht := List.mem_cons.1 ht
            · exact Nat.le_refl offset
            · have hle := hrest t ht
              rw [List.take_zero, byteLength]
              omega

/-- The tokens of a text are in order, and so are those without its comments. -/
theorem sorted_significant (source : String) : Sorted (significant (ofText source)) :=
  (sorted_scan 0 0 false source.toList).1.of_sublist List.filter_sublist

/-! ## places in the text -/

theorem byteLength_append (cs ds : List Char) :
    byteLength (cs ++ ds) = byteLength cs + byteLength ds := by
  induction cs with
  | nil => simp [byteLength]
  | cons c cs ih => rw [List.cons_append, byteLength, byteLength, ih, Nat.add_assoc]

/-- The bytes of a list of characters are those of the string it makes. -/
theorem byteLength_eq (cs : List Char) : byteLength cs = (String.ofList cs).utf8ByteSize := by
  induction cs with
  | nil => rfl
  | cons c cs ih =>
    rw [byteLength, ih, String.ofList_cons, String.utf8ByteSize_append,
      String.utf8ByteSize_singleton]

theorem byteLength_toList (source : String) : byteLength source.toList = source.utf8ByteSize := by
  rw [byteLength_eq, String.ofList_toList]

end Token

/-- The span is the place of some characters of a text that begins at the offset. -/
def Span.Selects (s : Span) (offset : Nat) (cs : List Char) : Prop :=
  ∃ front piece back, cs = front ++ (piece ++ back) ∧
    s = ⟨offset + Token.byteLength front, offset + Token.byteLength (front ++ piece)⟩

theorem Span.Selects.cons {s : Span} {offset : Nat} {c : Char} {cs : List Char}
    (h : s.Selects (offset + c.utf8Size) cs) : s.Selects offset (c :: cs) := by
  obtain ⟨front, piece, back, rfl, rfl⟩ := h
  refine ⟨c :: front, piece, back, rfl, ?_⟩
  rw [List.cons_append, Token.byteLength, Token.byteLength, Nat.add_assoc, Nat.add_assoc]

namespace Token

/-- Each token is the place of some characters. -/
theorem selects_of_mem_scan {skip offset : Nat} {touchable : Bool} {cs : List Char}
    {t : Token Span} (ht : t ∈ scan skip offset touchable cs) : t.span.Selects offset cs := by
  induction cs generalizing skip offset touchable with
  | nil => cases ht
  | cons c cs ih =>
    unfold scan at ht
    split at ht
    · exact (ih ht).cons
    · split at ht
      · exact (ih ht).cons
      · next kind n hpiece =>
        obtain rfl | ht := List.mem_cons.1 ht
        · exact ⟨[], (c :: cs).take n, (c :: cs).drop n, (List.take_append_drop n _).symm, rfl⟩
        · exact (ih ht).cons

/-- The span of a token lies in the text, on boundaries of characters. -/
theorem selects_of_mem_significant {source : String} {t : Token Span}
    (ht : t ∈ significant (ofText source)) : t.span.Selects 0 source.toList :=
  selects_of_mem_scan (List.mem_filter.1 ht).1

/-- No token ends after the text. -/
theorem stop_le_of_mem_significant {source : String} {t : Token Span}
    (ht : t ∈ significant (ofText source)) : t.span.stop ≤ source.utf8ByteSize := by
  obtain ⟨front, piece, back, hsource, hspan⟩ := selects_of_mem_significant ht
  have hlen := byteLength_append (front ++ piece) back
  rw [List.append_assoc, ← hsource, byteLength_toList] at hlen
  rw [hspan]
  change 0 + byteLength (front ++ piece) ≤ _
  omega

end Token

end CallGrammar
