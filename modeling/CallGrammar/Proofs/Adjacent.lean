import CallGrammar.Proofs.Sorted

/-!
# CallGrammar.Proofs.Adjacent

What it means that a token touches the one before it, said by the spans alone: among
the tokens that are no comments, the one before it is no line break and ends exactly
where the token starts.

The scan keeps a flag instead of looking back.  `linked_scan` carries the meaning of the
flag from piece to piece: blank space and comments move on from the last token, so
nothing can touch it any more.
-/

namespace CallGrammar

variable {σ : Type}

namespace Token

/-- A token that starts at the offset touches this one. -/
def TouchableAt (u : Token Span) (offset : Nat) : Prop :=
  u.kind ≠ .newline ∧ u.span.stop = offset

/-- The token before the one with the given index, in a vector that comes after `before`. -/
def previous (before : Option (Token σ)) (ts : List (Token σ)) : Nat → Option (Token σ)
  | 0 => before
  | i + 1 => ts[i]?

/-- The token with the index touches the one before it. -/
def Adjacent (ts : List (Token Span)) (i : Nat) : Prop :=
  ∃ u t, previous none ts i = some u ∧ ts[i]? = some t ∧ u.TouchableAt t.span.start

/-- In a vector that comes after `before`, the flags of all tokens are right. -/
def Linked : Option (Token Span) → List (Token Span) → Prop
  | _, [] => True
  | before, t :: ts =>
    (t.touching = true ↔ ∃ u ∈ before, u.TouchableAt t.span.start) ∧ Linked (some t) ts

/-- A token touches the one before it if that one ends where it starts. -/
theorem Linked.touching_iff {before : Option (Token Span)} {ts : List (Token Span)} {i : Nat}
    {t : Token Span} (h : Linked before ts) (ht : ts[i]? = some t) :
    t.touching = true ↔ ∃ u, previous before ts i = some u ∧ u.TouchableAt t.span.start := by
  induction ts generalizing before i with
  | nil => simp at ht
  | cons u ts ih =>
    cases i with
    | zero =>
      simp only [List.getElem?_cons_zero, Option.some.injEq] at ht
      subst ht
      exact h.1
    | succ i =>
      rw [List.getElem?_cons_succ] at ht
      have hprevious : previous before (u :: ts) (i + 1) = previous (some u) ts i := by
        cases i <;> rfl
      rw [hprevious]
      exact ih h.2 ht

/-! ## the flag of the scan -/

theorem Kind.canBeTouched_iff {k : Kind} (h : k.isComment = false) :
    k.canBeTouched = true ↔ k ≠ .newline := by
  cases k <;> simp_all [Kind.canBeTouched, Kind.isComment]

/-- With the right flag for the end of what is skipped, a scan after the token `before`
gives tokens with the right flags. -/
theorem linked_scan {skip offset : Nat} {touchable : Bool} {cs : List Char}
    {before : Option (Token Span)}
    (htouchable : touchable = true ↔
      ∃ u ∈ before, u.TouchableAt (offset + byteLength (cs.take skip)))
    (hbefore : ∀ u ∈ before, u.span.stop ≤ offset + byteLength (cs.take skip)) :
    Linked before (significant (scan skip offset touchable cs)) := by
  induction cs generalizing skip offset touchable before with
  | nil => trivial
  | cons c cs ih =>
    unfold scan
    cases skip with
    | succ skip =>
      rw [List.take_succ_cons, byteLength, ← Nat.add_assoc] at htouchable hbefore
      exact ih htouchable hbefore
    | zero =>
      rw [List.take_zero, byteLength, Nat.add_zero] at htouchable hbefore
      have hpos := firstPiece_pos c cs
      cases hpiece : firstPiece c cs with
      | mk found n =>
        rw [hpiece] at hpos
        obtain ⟨m, rfl⟩ : ∃ m, n = m + 1 := ⟨n - 1, (Nat.succ_pred_eq_of_pos hpos).symm⟩
        have hc := Char.utf8Size_pos c
        have hend : ∀ u ∈ before,
            u.span.stop < offset + c.utf8Size + byteLength (cs.take m) := by
          intro u hu
          have hle := hbefore u hu
          omega
        -- After blank space or a comment, nothing touches `before` any more.
        have hgap : Linked before (significant (scan m (offset + c.utf8Size) false cs)) := by
          refine ih (iff_of_false Bool.false_ne_true ?_) fun u hu => Nat.le_of_lt (hend u hu)
          rintro ⟨u, hu, -, hstop⟩
          exact absurd hstop (Nat.ne_of_lt (hend u hu))
        cases found with
        | none => exact hgap
        | some kind =>
          unfold significant
          rw [List.filter_cons]
          cases hcomment : kind.isComment with
          | true =>
            have hflag : kind.canBeTouched = false := by cases kind <;> first | rfl | cases hcomment
            simpa [significant, hflag, hcomment] using hgap
          | false =>
            have hstop : offset + byteLength (c :: cs.take m)
                = offset + c.utf8Size + byteLength (cs.take m) := by
              rw [byteLength, Nat.add_assoc]
            refine ⟨htouchable, ih ?_ ?_⟩
            · rw [Kind.canBeTouched_iff hcomment]
              simp [TouchableAt, hstop]
            · simp [hstop]

/-- **Adjacency**: a significant token touches exactly if it is adjacent to the one
before it. -/
theorem touching_iff_adjacent {source : String} {i : Nat} {t : Token Span}
    (ht : (significant (ofText source))[i]? = some t) :
    t.touching = true ↔ Adjacent (significant (ofText source)) i := by
  have hlinked : Linked none (significant (ofText source)) :=
    linked_scan (by simp) (by simp)
  rw [hlinked.touching_iff ht]
  simp [Adjacent, ht]

end Token

end CallGrammar
