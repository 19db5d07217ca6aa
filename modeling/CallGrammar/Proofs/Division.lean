import CallGrammar.Proofs.Seam

/-!
# CallGrammar.Proofs.Division

A text as the sequence of its pieces.  `Leads` says which piece a text begins with,
`Divides` what the pieces of a whole text are and which tokens they make; the scan of a
text is such a division (`divides_scan`).  So what holds of every first piece holds of
every token, at the place that the token has in the text (`Span.Cuts`).
-/

namespace CallGrammar

/-- The span is the place of `piece`, right before `back`, in a text that begins at the
offset. -/
def Span.Cuts (s : Span) (offset : Nat) (cs piece back : List Char) : Prop :=
  ∃ front, cs = front ++ (piece ++ back) ∧
    s = ⟨offset + Token.byteLength front, offset + Token.byteLength (front ++ piece)⟩

/-- Text in front moves a cut by its bytes. -/
theorem Span.Cuts.append {s : Span} {offset : Nat} {front cs piece back : List Char}
    (h : s.Cuts (offset + Token.byteLength front) cs piece back) :
    s.Cuts offset (front ++ cs) piece back := by
  obtain ⟨middle, rfl, rfl⟩ := h
  refine ⟨front ++ middle, (List.append_assoc ..).symm, ?_⟩
  rw [List.append_assoc, Token.byteLength_append front, Token.byteLength_append front,
    Nat.add_assoc, Nat.add_assoc]

/-- Two fronts of a text that take as many bytes are the same. -/
theorem Token.eq_of_byteLength_eq {front front' rest rest' : List Char}
    (h : front ++ rest = front' ++ rest')
    (hlen : Token.byteLength front = Token.byteLength front') : front = front' := by
  have hnil (ds : List Char) (hzero : Token.byteLength ds = 0) : ds = [] := by
    cases ds with
    | nil => rfl
    | cons c cs => exact absurd hzero (Nat.ne_of_gt (Token.byteLength_pos c cs))
  obtain ⟨middle, rfl, -⟩ | ⟨middle, rfl, -⟩ := List.append_eq_append_iff.1 h
  · rw [Token.byteLength_append] at hlen
    rw [hnil middle (by omega), List.append_nil]
  · rw [Token.byteLength_append] at hlen
    rw [hnil middle (by omega), List.append_nil]

/-- A span is the place of one piece only. -/
theorem Span.Cuts.unique {s : Span} {offset : Nat} {cs piece piece' back back' : List Char}
    (h : s.Cuts offset cs piece back) (h' : s.Cuts offset cs piece' back') :
    piece = piece' ∧ back = back' := by
  obtain ⟨front, rfl, rfl⟩ := h
  obtain ⟨front', htext, hspan⟩ := h'
  injection hspan with hstart hstop
  obtain rfl := Token.eq_of_byteLength_eq htext (Nat.add_left_cancel hstart)
  have hrest : piece ++ back = piece' ++ back' := List.append_cancel_left htext
  rw [Token.byteLength_append, Token.byteLength_append] at hstop
  obtain rfl := Token.eq_of_byteLength_eq hrest (by omega)
  exact ⟨rfl, List.append_cancel_left hrest⟩

namespace Token

variable {found : Option Kind} {kind : Kind} {piece back cs : List Char} {n offset : Nat}
  {touchable : Bool} {ts : List (Token Span)} {r : Rule}

/-! ## first pieces -/

/-- The first piece of the text `piece ++ back` is `piece`: the token `found`, or blank
space. -/
def Leads (found : Option Kind) (piece back : List Char) : Prop :=
  ∃ c cs, piece = c :: cs ∧ firstPiece c (cs ++ back) = (found, cs.length + 1)

/-- What the tokenizer takes first is a lexeme that leads the text. -/
theorem leads_of_firstPiece {c : Char} (h : firstPiece c cs = (found, n + 1)) :
    Leads found (c :: cs.take n) (cs.drop n) := by
  have hle : n ≤ cs.length := by simpa [h] using firstPiece_le c cs
  exact ⟨c, cs.take n, rfl, by rw [List.take_append_drop, List.length_take_of_le hle, h]⟩

theorem Leads.ne_nil (h : Leads found piece back) : piece ≠ [] := by
  obtain ⟨c, cs, rfl, -⟩ := h
  exact List.cons_ne_nil c cs

/-- A rule with the longest match reads the piece, or nothing matches and the piece is
one character. -/
theorem Leads.best (h : Leads found piece back) :
    (∃ r, Rule.best Rule.table (piece ++ back) = some (r, piece.length) ∧
      r.read piece = found) ∨
    (Rule.best Rule.table (piece ++ back) = none ∧
      ∃ c, piece = [c] ∧ found = some (.invalid (.unexpectedCharacter c))) := by
  obtain ⟨c, cs, rfl, hpiece⟩ := h
  unfold firstPiece at hpiece
  rw [← List.cons_append] at hpiece
  split at hpiece
  · next r n hbest =>
    obtain ⟨hread, hn⟩ := Prod.mk.inj hpiece
    have htake : ((c :: cs) ++ back).take (cs.length + 1) = c :: cs := List.take_left' rfl
    rw [hn] at hbest hread
    rw [htake] at hread
    exact .inl ⟨r, hbest, hread⟩
  · next hbest =>
    obtain ⟨hfound, hn⟩ := Prod.mk.inj hpiece
    obtain rfl : cs = [] := List.eq_nil_of_length_eq_zero (by omega)
    exact .inr ⟨hbest, c, rfl, hfound.symm⟩

/-- An atom is its own spelling. -/
theorem Leads.spelling (hk : kind.isAtom = true) (h : Leads (some kind) piece back) :
    kind.spelling = piece := by
  obtain ⟨c, cs, rfl, hpiece⟩ := h
  obtain ⟨hspelling, -, -⟩ := spelling_of_firstPiece hk hpiece
  have htake : ((c :: cs) ++ back).take (cs.length + 1) = c :: cs := List.take_left' rfl
  exact hspelling.trans htake

/-- What the best rule takes leads the text, as the kind that the rule reads. -/
theorem Leads.of_best (h : Rule.best Rule.table (piece ++ back) = some (r, piece.length)) :
    Leads (r.read piece) piece back := by
  have hpos := Rule.best_pos Rule.nullable_of_mem_table h
  cases piece with
  | nil => cases hpos
  | cons c cs =>
    refine ⟨c, cs, rfl, ?_⟩
    unfold firstPiece
    rw [← List.cons_append, h]
    simp only [List.take_left' rfl]
    rfl

/-- The piece is the same before any text before which the same rule is best. -/
theorem Leads.congr {back' : List Char} (h : Leads found piece back)
    (hbest : Rule.best Rule.table (piece ++ back') = Rule.best Rule.table (piece ++ back)) :
    Leads found piece back' := by
  obtain ⟨r, hr, rfl⟩ | ⟨hnone, c, rfl, rfl⟩ := h.best
  · exact .of_best (hbest.trans hr)
  · have hnone' : Rule.best Rule.table (c :: back') = none := hbest.trans hnone
    exact ⟨c, [], rfl, by simp [firstPiece, hnone']⟩

/-! ## divisions -/

/-- The pieces of a text that begins at an offset, and the tokens they make.  The
`Bool` says that a token right at the start touches one before it. -/
inductive Divides : Nat → Bool → List Char → List (Token Span) → Prop where
  | nil {offset : Nat} {touchable : Bool} : Divides offset touchable [] []
  | blank {offset : Nat} {touchable : Bool} {piece back : List Char} {ts : List (Token Span)} :
      Leads none piece back → Divides (offset + byteLength piece) false back ts →
      Divides offset touchable (piece ++ back) ts
  | token {offset : Nat} {touchable : Bool} {kind : Kind} {piece back : List Char}
      {ts : List (Token Span)} :
      Leads (some kind) piece back →
      Divides (offset + byteLength piece) kind.canBeTouched back ts →
      Divides offset touchable (piece ++ back)
        (⟨kind, ⟨offset, offset + byteLength piece⟩, touchable⟩ :: ts)

/-- From where the scan stands, it divides the text. -/
theorem divides_scan_drop (skip offset : Nat) (touchable : Bool) (cs : List Char) :
    Divides (offset + byteLength (cs.take skip)) touchable (cs.drop skip)
      (scan skip offset touchable cs) := by
  induction cs generalizing skip offset touchable with
  | nil => rw [List.drop_nil]; exact .nil
  | cons c cs ih =>
    cases skip with
    | succ skip =>
      rw [List.take_succ_cons, List.drop_succ_cons, byteLength, ← Nat.add_assoc]
      exact ih skip (offset + c.utf8Size) touchable
    | zero =>
      have hpos := firstPiece_pos c cs
      cases hpiece : firstPiece c cs with
      | mk found n =>
        rw [hpiece] at hpos
        obtain ⟨n, rfl⟩ := Nat.exists_eq_succ_of_ne_zero (Nat.ne_of_gt hpos)
        have hleads := leads_of_firstPiece hpiece
        have hdrop : (c :: cs).drop 0 = (c :: cs.take n) ++ cs.drop n := by simp
        rw [hdrop, List.take_zero, byteLength, Nat.add_zero]
        cases found with
        | none =>
          have hrest := ih n (offset + c.utf8Size) false
          rw [Nat.add_assoc] at hrest
          rw [scan_blank hpiece]
          exact .blank hleads hrest
        | some kind =>
          have hrest := ih n (offset + c.utf8Size) kind.canBeTouched
          rw [Nat.add_assoc] at hrest
          rw [scan_token hpiece]
          exact .token hleads hrest

/-- The scan of a text divides it. -/
theorem divides_scan (offset : Nat) (touchable : Bool) (cs : List Char) :
    Divides offset touchable cs (scan 0 offset touchable cs) :=
  divides_scan_drop 0 offset touchable cs

/-- A token is put down, and the scan goes on behind it. -/
theorem Leads.scan_token (h : Leads (some kind) piece back) (offset : Nat) (touchable : Bool) :
    scan 0 offset touchable (piece ++ back)
      = ⟨kind, ⟨offset, offset + byteLength piece⟩, touchable⟩
        :: scan 0 (offset + byteLength piece) kind.canBeTouched back := by
  obtain ⟨c, cs, rfl, hpiece⟩ := h
  have htake : ((c :: cs) ++ back).take (cs.length + 1) = c :: cs := List.take_left' rfl
  rw [List.cons_append] at htake
  rw [List.cons_append, Token.scan_token hpiece, Nat.add_sub_cancel, scan_append, htake,
    Nat.add_assoc, byteLength]

/-! ## places -/

/-- Each token of a division is its first piece somewhere in the text. -/
theorem Divides.exists_cuts (h : Divides offset touchable cs ts) :
    ∀ t ∈ ts, ∃ piece back, t.span.Cuts offset cs piece back ∧ Leads (some t.kind) piece back := by
  induction h with
  | nil => exact fun t ht => absurd ht List.not_mem_nil
  | blank _ _ ih =>
    intro t ht
    obtain ⟨piece, back, hcuts, hleads⟩ := ih t ht
    exact ⟨piece, back, hcuts.append, hleads⟩
  | @token offset _ kind piece back ts hleads _ ih =>
    intro t ht
    obtain rfl | ht := List.mem_cons.1 ht
    · exact ⟨piece, back, ⟨[], rfl, rfl⟩, hleads⟩
    · obtain ⟨piece', back', hcuts, hleads'⟩ := ih t ht
      exact ⟨piece', back', hcuts.append, hleads'⟩

end Token

end CallGrammar
