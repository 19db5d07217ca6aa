import CallGrammar.Proofs.Partition

/-!
# CallGrammar.Proofs.Blanking

Comments replaced by spaces, one for each byte.

`blankOut` goes by the offsets that a comment covers and knows nothing of pieces; as the
text is divided, it puts spaces for the pieces that are comments and keeps the others
(`Blanks`).  What a text and its blanked form have in common before the first comment, and
that blanking closes no bracketed comment, is all that reading the other pieces asks for.
-/

namespace CallGrammar

namespace Token

variable {cs cs' piece back back' : List Char} {offset i : Nat} {touchable : Bool} {t : Token Span}
  {ts : List (Token Span)} {hidden : Nat → Bool} {kind : Kind} {c : Char}

/-! ## blanking by offsets -/

/-- The text from an offset on, with spaces, one for each byte, for the characters at
hidden offsets. -/
def blankOut (hidden : Nat → Bool) (offset : Nat) : List Char → List Char
  | [] => []
  | c :: cs =>
    (if hidden offset then List.replicate c.utf8Size ' ' else [c])
      ++ blankOut hidden (offset + c.utf8Size) cs

/-- Whether the byte with this offset is part of a comment. -/
def inComment (ts : List (Token Span)) (i : Nat) : Bool :=
  ts.any fun t => t.kind.isComment && decide (t.span.Holds i)

/-- The source with a space for each byte of its comments. -/
def withoutComments (source : String) : String :=
  String.ofList (blankOut (inComment (ofText source)) 0 source.toList)

/-- Two texts are blanked one after the other. -/
theorem blankOut_append (hidden : Nat → Bool) (offset : Nat) (cs ds : List Char) :
    blankOut hidden offset (cs ++ ds)
      = blankOut hidden offset cs ++ blankOut hidden (offset + byteLength cs) ds := by
  induction cs generalizing offset with
  | nil => simp [blankOut, byteLength]
  | cons c cs ih => simp [blankOut, byteLength, ih, Nat.add_assoc]

/-- What is hidden becomes as many spaces as it has bytes. -/
theorem blankOut_of_hidden (h : ∀ i < byteLength cs, hidden (offset + i) = true) :
    blankOut hidden offset cs = List.replicate (byteLength cs) ' ' := by
  induction cs generalizing offset with
  | nil => rfl
  | cons c cs ih =>
    have hpos := Char.utf8Size_pos c
    have hc : hidden offset = true := h 0 (by rw [byteLength]; omega)
    have hcs : ∀ i < byteLength cs, hidden (offset + c.utf8Size + i) = true := by
      intro i hi
      rw [Nat.add_assoc]
      exact h (c.utf8Size + i) (by rw [byteLength]; omega)
    rw [blankOut, if_pos hc, ih hcs, byteLength, List.replicate_add]

/-- What is shown stays. -/
theorem blankOut_of_shown (h : ∀ i < byteLength cs, hidden (offset + i) = false) :
    blankOut hidden offset cs = cs := by
  induction cs generalizing offset with
  | nil => rfl
  | cons c cs ih =>
    have hpos := Char.utf8Size_pos c
    have hc : hidden offset = false := h 0 (by rw [byteLength]; omega)
    have hcs : ∀ i < byteLength cs, hidden (offset + c.utf8Size + i) = false := by
      intro i hi
      rw [Nat.add_assoc]
      exact h (c.utf8Size + i) (by rw [byteLength]; omega)
    simp [blankOut, hc, ih hcs]

/-! ## the same byte by byte -/

/-- The bytes, with the one of a space at hidden offsets. -/
def blankOutBytes (hidden : Nat → Bool) (offset : Nat) (bs : List UInt8) : List UInt8 :=
  bs.mapIdx fun i b => if hidden (offset + i) then 0x20 else b

/-- Bytes are blanked one after the other. -/
theorem blankOutBytes_append (hidden : Nat → Bool) (offset : Nat) (bs bs' : List UInt8) :
    blankOutBytes hidden offset (bs ++ bs')
      = blankOutBytes hidden offset bs ++ blankOutBytes hidden (offset + bs.length) bs' := by
  have hshift (i : Nat) : offset + (i + bs.length) = offset + bs.length + i := by omega
  simp [blankOutBytes, List.mapIdx_append, hshift]

theorem bytes_replicate_space (n : Nat) :
    bytes (List.replicate n ' ') = List.replicate n 0x20 := by
  induction n with
  | zero => rfl
  | succ n ih =>
    rw [bytes] at ih
    rw [bytes, List.replicate_succ, List.flatMap_cons, ih, List.replicate_succ]
    rfl

/-- Of hidden characters every byte is blanked. -/
theorem bytes_blankOut_of_hidden (h : ∀ i < byteLength cs, hidden (offset + i) = true) :
    bytes (blankOut hidden offset cs) = blankOutBytes hidden offset (bytes cs) := by
  rw [blankOut_of_hidden h, bytes_replicate_space]
  apply List.ext_getElem
  · simp [blankOutBytes, length_bytes]
  · intro i hi hi'
    have hi : i < byteLength cs := by simpa using hi
    simp [blankOutBytes, h i hi]

/-- Of characters that are shown none is. -/
theorem bytes_blankOut_of_shown (h : ∀ i < byteLength cs, hidden (offset + i) = false) :
    bytes (blankOut hidden offset cs) = blankOutBytes hidden offset (bytes cs) := by
  rw [blankOut_of_shown h]
  apply List.ext_getElem
  · simp [blankOutBytes]
  · intro i hi hi'
    have hi : i < byteLength cs := by simpa [length_bytes] using hi
    simp [blankOutBytes, h i hi]

/-! ## blanking by pieces -/

/-- The second text is the first one with spaces, one for each byte, for the pieces that
are comments. -/
inductive Blanks : List Char → List Char → Prop where
  | nil : Blanks [] []
  | blank {piece back back' : List Char} : Leads none piece back → Blanks back back' →
      Blanks (piece ++ back) (piece ++ back')
  | word {kind : Kind} {piece back back' : List Char} : Leads (some kind) piece back →
      kind.isComment = false → Blanks back back' → Blanks (piece ++ back) (piece ++ back')
  | comment {kind : Kind} {piece back back' : List Char} : Leads (some kind) piece back →
      kind.isComment = true → Blanks back back' →
      Blanks (piece ++ back) (List.replicate (byteLength piece) ' ' ++ back')

/-- No token begins before the text. -/
theorem Divides.inComment_eq_false (h : Divides offset touchable cs ts) (hi : i < offset) :
    inComment ts i = false := by
  apply List.any_eq_false.2
  intro t ht hcomment
  simp only [Bool.and_eq_true, decide_eq_true_eq] at hcomment
  obtain ⟨-, hstart, -⟩ := hcomment
  obtain ⟨piece, back, ⟨front, -, hspan⟩, -⟩ := h.exists_cuts t ht
  rw [hspan] at hstart
  change offset + byteLength front ≤ i at hstart
  omega

/-- Blanking by the offsets that comments cover is blanking by pieces, and blanks the same
bytes. -/
theorem Divides.blanks (h : Divides offset touchable cs ts)
    (hhidden : ∀ i, offset ≤ i → hidden i = inComment ts i) :
    Blanks cs (blankOut hidden offset cs) ∧
      bytes (blankOut hidden offset cs) = blankOutBytes hidden offset (bytes cs) := by
  induction h with
  | nil => exact ⟨.nil, rfl⟩
  | @blank offset _ piece back ts hleads hdivides ih =>
    obtain ⟨hblanks, hbytes⟩ := ih fun i hi => hhidden i (by omega)
    have hshown : ∀ i < byteLength piece, hidden (offset + i) = false := by
      intro i hi
      rw [hhidden _ (by omega)]
      exact hdivides.inComment_eq_false (by omega)
    rw [blankOut_append, bytes_append, bytes_append, blankOutBytes_append, length_bytes, hbytes,
      bytes_blankOut_of_shown hshown, blankOut_of_shown hshown]
    exact ⟨.blank hleads hblanks, rfl⟩
  | @token offset touchable kind piece back ts hleads hdivides ih =>
    have hback : ∀ i, offset + byteLength piece ≤ i → hidden i = inComment ts i := by
      intro i hi
      have hafter : ¬ Span.Holds ⟨offset, offset + byteLength piece⟩ i := by
        simp only [Span.Holds]
        omega
      rw [hhidden i (by omega)]
      simp [inComment, hafter]
    have hpiece : ∀ i < byteLength piece, hidden (offset + i) = kind.isComment := by
      intro i hi
      have hholds : Span.Holds ⟨offset, offset + byteLength piece⟩ (offset + i) :=
        ⟨Nat.le_add_right offset i, Nat.add_lt_add_left hi offset⟩
      have hrest : inComment ts (offset + i) = false := hdivides.inComment_eq_false (by omega)
      rw [inComment] at hrest
      rw [hhidden _ (by omega)]
      simp [inComment, hholds, hrest]
    obtain ⟨hblanks, hbytes⟩ := ih hback
    rw [blankOut_append, bytes_append, bytes_append, blankOutBytes_append, length_bytes, hbytes]
    cases hk : kind.isComment with
    | false =>
      have hshown : ∀ i < byteLength piece, hidden (offset + i) = false :=
        fun i hi => (hpiece i hi).trans hk
      rw [bytes_blankOut_of_shown hshown, blankOut_of_shown hshown]
      exact ⟨.word hleads hk hblanks, rfl⟩
    | true =>
      have hall : ∀ i < byteLength piece, hidden (offset + i) = true :=
        fun i hi => (hpiece i hi).trans hk
      rw [bytes_blankOut_of_hidden hall, blankOut_of_hidden hall]
      exact ⟨.comment hleads hk hblanks, rfl⟩

/-! ## what blanking changes -/

/-- A comment begins with a hash sign or a slash. -/
theorem Leads.exists_of_isComment (h : Leads (some kind) piece back)
    (hk : kind.isComment = true) : ∃ c cs, piece = c :: cs ∧ (c = '#' ∨ c = '/') := by
  have hlongest := h.longest
  cases kind with
  | lineComment text =>
    obtain ⟨hmem, -⟩ := hlongest
    rw [Kind.pattern, Rule.lineComment, Pattern.language_followedBy,
      Pattern.mem_language_seq] at hmem
    obtain ⟨u, hu, v, -, rfl⟩ := hmem
    exact ⟨'#', v, by rw [Pattern.mem_language_char.1 hu, List.singleton_append], .inl rfl⟩
  | blockComment text => exact ⟨'/', _, hlongest.1, .inr rfl⟩
  | _ => cases hk

/-- The first difference is a space where a comment begins. -/
theorem Blanks.eq_or_exists (h : Blanks cs cs') :
    cs' = cs ∨ ∃ shared c rest rest', (c = '#' ∨ c = '/') ∧
      cs = shared ++ c :: rest ∧ cs' = shared ++ ' ' :: rest' := by
  induction h with
  | nil => exact .inl rfl
  | @blank piece _ _ _ _ ih | @word _ piece _ _ _ _ _ ih =>
    obtain rfl | ⟨shared, c, rest, rest', hc, rfl, rfl⟩ := ih
    · exact .inl rfl
    · exact .inr ⟨piece ++ shared, c, rest, rest', hc, by simp, by simp⟩
  | @comment _ piece back back' hleads hk _ _ =>
    obtain ⟨c, cs, rfl, hc⟩ := hleads.exists_of_isComment hk
    obtain ⟨n, hn⟩ := Nat.exists_eq_succ_of_ne_zero (Nat.ne_of_gt (byteLength_pos c cs))
    refine .inr ⟨[], c, cs ++ back, List.replicate n ' ' ++ back', hc, rfl, ?_⟩
    rw [hn, List.replicate_succ, List.cons_append, List.nil_append]

/-- Blanking brings no slash to the front. -/
theorem Blanks.head_slash (h : Blanks cs cs') (hhead : cs'.head? = some '/') :
    cs.head? = some '/' := by
  obtain rfl | ⟨shared, c, rest, rest', -, rfl, rfl⟩ := h.eq_or_exists
  · exact hhead
  · cases shared with
    | nil => simp at hhead
    | cons d shared => exact hhead

theorem closing_prefix_cons :
    Comment.closing <+: c :: cs ↔ c = '*' ∧ cs.head? = some '/' := by
  cases cs <;> simp [Comment.closing, eq_comm]

/-- A comment that is closed in the blanked text is closed in the text. -/
theorem closing_append (hhead : back'.head? = some '/' → back.head? = some '/')
    (hback : Comment.closing <:+: back' → Comment.closing <:+: back)
    (h : Comment.closing <:+: piece ++ back') : Comment.closing <:+: piece ++ back := by
  induction piece with
  | nil => exact hback h
  | cons c piece ih =>
    rw [List.cons_append, List.infix_cons_iff, closing_prefix_cons] at h ⊢
    obtain ⟨hc, hnext⟩ | h := h
    · cases piece with
      | nil => exact .inl ⟨hc, hhead hnext⟩
      | cons d piece => exact .inl ⟨hc, hnext⟩
    · exact .inr (ih h)

/-- Spaces close no comment. -/
theorem closing_of_spaces {n : Nat} (h : Comment.closing <:+: List.replicate n ' ' ++ cs) :
    Comment.closing <:+: cs := by
  induction n with
  | zero => exact h
  | succ n ih =>
    rw [List.replicate_succ, List.cons_append, List.infix_cons_iff, closing_prefix_cons] at h
    obtain ⟨hc, -⟩ | h := h
    · exact absurd hc (by decide)
    · exact ih h

/-- Blanking puts no closer where there was none. -/
theorem Blanks.closing (h : Blanks cs cs') (hclosing : Comment.closing <:+: cs') :
    Comment.closing <:+: cs := by
  induction h with
  | nil => exact hclosing
  | blank _ hblanks ih | word _ _ hblanks ih =>
    exact closing_append hblanks.head_slash ih hclosing
  | @comment _ piece back back' _ _ hblanks ih =>
    exact (ih (closing_of_spaces hclosing)).trans (List.suffix_append piece back).isInfix

end Token

end CallGrammar
