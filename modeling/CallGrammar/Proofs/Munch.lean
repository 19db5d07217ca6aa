import CallGrammar.Proofs.Sorted

/-!
# CallGrammar.Proofs.Munch

Where the longest match ends.  A rule that has read a word goes on only if the next
character may open what the rule still asks for; where no rule goes on, the first
piece of a text is the word, whatever follows.
-/

namespace CallGrammar

/-! ## what a pattern asks for -/

namespace Pattern

variable {p q : Pattern} {c d : Char} {cs w rest : List Char} {n : Nat}

/-- What may follow after `w` has been read. -/
def derivatives (w : List Char) (p : Pattern) : Pattern :=
  w.foldl (fun p c => p.derivative c) p

/-- Whether a text of the pattern may begin with `c`. -/
def opensWith (c : Char) : Pattern → Bool
  | never | nothing => false
  | one accepts => accepts c
  | seq p q => p.opensWith c || (p.nullable && q.opensWith c)
  | alt p q => p.opensWith c || q.opensWith c
  | star p => p.opensWith c

/-- Whether `c` may stand anywhere in a text of the pattern. -/
def mentions (c : Char) : Pattern → Bool
  | never | nothing => false
  | one accepts => accepts c
  | seq p q | alt p q => p.mentions c || q.mentions c
  | star p => p.mentions c

/-- Whether the pattern is one of the two that ask for no character. -/
def isEmpty : Pattern → Bool
  | never | nothing => true
  | _ => false

/-- A pattern of no text opens with no character. -/
theorem opensWith_of_isEmpty (c : Char) (h : p.isEmpty = true) : p.opensWith c = false := by
  cases p with
  | never | nothing => rfl
  | one | seq | alt | star => cases h

/-- Behind a character that a pattern does not open with, it has no text. -/
theorem derivative_eq_never (h : p.opensWith c = false) : p.derivative c = never := by
  induction p with
  | never | nothing => rfl
  | one accepts =>
    have hc : accepts c = false := h
    simp [derivative, hc]
  | seq p q ihp ihq =>
    simp only [opensWith, Bool.or_eq_false_iff, Bool.and_eq_false_iff] at h
    obtain ⟨hp, hq⟩ := h
    unfold derivative
    rw [ihp hp]
    split
    · next hnull =>
      have hq : q.opensWith c = false := by simpa [hnull] using hq
      rw [ihq hq]
      rfl
    · rfl
  | alt p q ihp ihq =>
    simp only [opensWith, Bool.or_eq_false_iff] at h
    rw [derivative, ihp h.1, ihq h.2]
    rfl
  | star p ih =>
    rw [derivative, ih h]
    rfl

/-- A pattern opens only with characters that it mentions. -/
theorem opensWith_of_mentions (h : p.mentions c = false) : p.opensWith c = false := by
  induction p with
  | never | nothing => rfl
  | one accepts => exact h
  | seq p q ihp ihq =>
    simp only [mentions, Bool.or_eq_false_iff] at h
    simp [opensWith, ihp h.1, ihq h.2]
  | alt p q ihp ihq =>
    simp only [mentions, Bool.or_eq_false_iff] at h
    simp [opensWith, ihp h.1, ihq h.2]
  | star p ih => exact ih h

theorem mentions_followedBy (hp : p.mentions c = false) (hq : q.mentions c = false) :
    (p.followedBy q).mentions c = false := by
  unfold followedBy
  split <;> simp_all [mentions]

theorem mentions_or (hp : p.mentions c = false) (hq : q.mentions c = false) :
    (p.or q).mentions c = false := by
  unfold or
  split <;> simp_all [mentions]

/-- After a character a pattern mentions nothing new. -/
theorem mentions_derivative (d : Char) (h : p.mentions c = false) :
    (p.derivative d).mentions c = false := by
  induction p with
  | never | nothing => rfl
  | one accepts =>
    unfold derivative
    split <;> rfl
  | seq p q ihp ihq =>
    simp only [mentions, Bool.or_eq_false_iff] at h
    have hseq := mentions_followedBy (ihp h.1) h.2
    unfold derivative
    split
    · exact mentions_or hseq (ihq h.2)
    · exact hseq
  | alt p q ihp ihq =>
    simp only [mentions, Bool.or_eq_false_iff] at h
    exact mentions_or (ihp h.1) (ihq h.2)
  | star p ih => exact mentions_followedBy (ih h) h

/-- Nor after several. -/
theorem mentions_derivatives (w : List Char) (h : p.mentions c = false) :
    (p.derivatives w).mentions c = false := by
  induction w generalizing p with
  | nil => exact h
  | cons d w ih => exact ih (mentions_derivative d h)

/-- After two texts a pattern is what it is after one and then the other. -/
theorem derivatives_append (w v : List Char) (p : Pattern) :
    p.derivatives (w ++ v) = (p.derivatives w).derivatives v :=
  List.foldl_append

theorem derivatives_never (w : List Char) : derivatives w never = never := by
  induction w with
  | nil => rfl
  | cons c w ih => exact ih

/-! ## the longest match -/

theorem longest_never (cs : List Char) : never.longest cs = none := by
  cases cs <;> rfl

theorem longest_cons (p : Pattern) (c : Char) (cs : List Char) :
    p.longest (c :: cs) =
      match (p.derivative c).longest cs with
      | some n => some (n + 1)
      | none => if p.nullable then some 0 else none := by
  cases p with
  | never =>
    show none = _
    rw [derivative, longest_never]
    rfl
  | nothing | one | seq | alt | star => rfl

/-- A pattern takes no more than there is. -/
theorem longest_le (h : p.longest cs = some n) : n ≤ cs.length := by
  induction cs generalizing p n with
  | nil =>
    simp only [longest, Option.ite_none_right_eq_some, Option.some.injEq] at h
    simp [← h.2]
  | cons c cs ih =>
    rw [longest_cons] at h
    split at h
    · next m hm =>
      have hle := ih hm
      cases h
      simpa using hle
    · simp only [Option.ite_none_right_eq_some, Option.some.injEq] at h
      simp [← h.2]

/-- A pattern that matches all of a text matches nothing longer. -/
theorem longest_eq_length (h : (p.derivatives w).nullable = true) :
    p.longest w = some w.length := by
  induction w generalizing p with
  | nil =>
    have hp : p.nullable = true := h
    simp [longest, hp]
  | cons c w ih =>
    have hw : (p.derivative c).longest w = some w.length := ih h
    rw [longest_cons, hw]
    rfl

/-- After all that a pattern takes, it may end. -/
theorem nullable_of_longest (h : p.longest w = some w.length) :
    (p.derivatives w).nullable = true := by
  induction w generalizing p with
  | nil =>
    have hp : p.nullable = true := by simpa [longest] using h
    exact hp
  | cons c w ih =>
    rw [longest_cons] at h
    split at h
    · next m hm =>
      have hlen : m = w.length := by simpa using h
      rw [hlen] at hm
      exact ih hm
    · simp at h

/-- A character that a pattern does not go on with changes nothing. -/
theorem longest_append (h : (p.derivatives w).opensWith d = false) :
    p.longest (w ++ d :: rest) = p.longest w := by
  induction w generalizing p with
  | nil =>
    have hp : p.derivative d = never := derivative_eq_never h
    rw [List.nil_append, longest_cons, hp, longest_never]
    rfl
  | cons c w ih =>
    have hw : (p.derivative c).longest (w ++ d :: rest) = (p.derivative c).longest w := ih h
    rw [List.cons_append, longest_cons, longest_cons, hw]

/-- A pattern that takes something opens with the first character of it. -/
theorem opensWith_of_longest (hp : p.nullable = false) (h : p.longest (c :: cs) = some n) :
    p.opensWith c = true := by
  by_cases hc : p.opensWith c = true
  · exact hc
  · have hd : p.derivative c = never := derivative_eq_never (by simpa using hc)
    rw [longest_cons, hd, longest_never] at h
    simp [hp] at h

end Pattern

/-! ## where no rule goes on -/

namespace Rule

variable {rules : List Rule} {r : Rule} {c d : Char} {cs w rest : List Char} {n : Nat}

/-- Whether no rule reads on from the word `w` to the character `d`. -/
def stops (w : List Char) (d : Char) : Bool :=
  table.all fun r =>
    !(r.pattern.derivatives w).opensWith d &&
      (!(r.pattern.derivatives w).nullable || r.notBefore != some d)

/-- Whether no rule asks for more after the word `w`. -/
def isOver (w : List Char) : Bool :=
  table.all fun r =>
    (r.pattern.derivatives w).isEmpty &&
      (!(r.pattern.derivatives w).nullable || r.notBefore.isNone)

/-- A text that no rule goes on with stops before every character. -/
theorem stops_of_isOver (h : isOver w = true) (d : Char) : stops w d = true := by
  apply List.all_eq_true.2
  intro r hr
  have hr := List.all_eq_true.1 h r hr
  simp only [Bool.and_eq_true, Bool.or_eq_true, Option.isNone_iff_eq_none] at hr
  obtain ⟨hempty, hbefore⟩ := hr
  have hopens := Pattern.opensWith_of_isEmpty d hempty
  simp only [Bool.and_eq_true, Bool.or_eq_true, bne_iff_ne, hopens]
  exact ⟨rfl, hbefore.imp_right fun hnone => by simp [hnone]⟩

/-- The best rule is one of the rules, and takes that much. -/
theorem mem_of_best (h : best rules cs = some (r, n)) : r ∈ rules ∧ r.reach cs = some n := by
  induction rules generalizing r n with
  | nil => cases h
  | cons r' rs ih =>
    unfold best at h
    split at h
    · obtain ⟨hmem, hreach⟩ := ih h
      exact ⟨List.mem_cons_of_mem r' hmem, hreach⟩
    · next m hm _ =>
      cases h
      exact ⟨List.mem_cons_self, hm⟩
    · next m r'' m' hm hm' =>
      split at h
      · cases h
        obtain ⟨hmem, hreach⟩ := ih hm'
        exact ⟨List.mem_cons_of_mem r' hmem, hreach⟩
      · cases h
        exact ⟨List.mem_cons_self, hm⟩

theorem longest_of_reach (h : r.reach cs = some n) : r.pattern.longest cs = some n := by
  unfold reach at h
  split at h
  · cases h
  · next m hm =>
    split at h
    · cases h
    · cases h
      exact hm

/-- No match is longer than the whole text, and of several the first one counts. -/
theorem best_of_whole (h : r.reach cs = some cs.length) (rs : List Rule) :
    best (r :: rs) cs = some (r, cs.length) := by
  unfold best
  rw [h]
  cases hrs : best rs cs with
  | none => rfl
  | some found =>
    obtain ⟨r', m⟩ := found
    have hle : m ≤ cs.length := Pattern.longest_le (longest_of_reach (mem_of_best hrs).2)
    simp only [if_neg (Nat.not_lt.2 hle)]

/-- Which rule is best is told by what each of them takes. -/
theorem best_congr (h : ∀ r ∈ rules, r.reach cs = r.reach w) : best rules cs = best rules w := by
  induction rules with
  | nil => rfl
  | cons r rs ih =>
    have hr : r.reach cs = r.reach w := h r List.mem_cons_self
    have hrs : best rs cs = best rs w := ih fun r' hmem => h r' (List.mem_cons_of_mem r hmem)
    rw [best, best, hr, hrs]

/-- What a rule takes is not changed by a character that it does not go on with. -/
theorem reach_append (hopens : (r.pattern.derivatives w).opensWith d = false)
    (hbefore : (r.pattern.derivatives w).nullable = true → r.notBefore ≠ some d) :
    r.reach (w ++ d :: rest) = r.reach w := by
  unfold reach
  rw [Pattern.longest_append hopens]
  cases hw : r.pattern.longest w with
  | none => rfl
  | some n =>
    have hle : n ≤ w.length := Pattern.longest_le hw
    by_cases hn : n = w.length
    · subst hn
      have hne : r.notBefore ≠ some d := hbefore (Pattern.nullable_of_longest hw)
      have hbeq : (some d == r.notBefore) = false := by simpa using Ne.symm hne
      have hnone : (r.notBefore.isSome && none == r.notBefore) = false := by
        cases r.notBefore <;> rfl
      simp [hbeq, hnone]
    · have hlt : n < w.length := Nat.lt_of_le_of_ne hle hn
      have hhead : ((w ++ d :: rest).drop n).head? = (w.drop n).head? := by
        simp [List.head?_drop, List.getElem?_append_left hlt]
      simp only [hhead]

/-- Only the rules that may begin with the first character count. -/
theorem best_filter (hrules : ∀ r ∈ rules, r.pattern.nullable = false) :
    best rules (c :: cs) = best (rules.filter (·.pattern.opensWith c)) (c :: cs) := by
  induction rules with
  | nil => rfl
  | cons r rs ih =>
    have hr : r.pattern.nullable = false := hrules r List.mem_cons_self
    have hrs := ih fun r' hmem => hrules r' (List.mem_cons_of_mem r hmem)
    by_cases hc : r.pattern.opensWith c = true
    · simp only [List.filter_cons, hc, if_true, best, hrs]
    · have hnone : r.reach (c :: cs) = none := by
        cases hreach : r.reach (c :: cs) with
        | none => rfl
        | some n => exact absurd (Pattern.opensWith_of_longest hr (longest_of_reach hreach)) hc
      simp [hc, best, hrs, hnone]

/-- What the best rule takes is not changed by a character before which the text stops. -/
theorem best_append (h : stops w d = true) : best table (w ++ d :: rest) = best table w := by
  apply best_congr
  intro r hr
  have hr := List.all_eq_true.1 h r hr
  simp only [Bool.and_eq_true, Bool.not_eq_true', Bool.or_eq_true, bne_iff_ne] at hr
  obtain ⟨hopens, hbefore⟩ := hr
  apply reach_append hopens
  intro hnull
  simpa [hnull] using hbefore

end Rule

/-! ## pieces -/

namespace Token

variable {c d : Char} {cs w rest : List Char} {found : Option Kind}

/-- Whether a text is one piece: the token `found`, or blank space. -/
def isPiece : List Char → Option Kind → Bool
  | [], _ => false
  | c :: cs, found => firstPiece c cs == (found, cs.length + 1)

theorem isPiece_cons : isPiece (c :: cs) found = true ↔ firstPiece c cs = (found, cs.length + 1) :=
  beq_iff_eq

/-- So the first piece of a text is the same before such a character. -/
theorem firstPiece_append (h : Rule.stops (c :: cs) d = true) :
    firstPiece c (cs ++ d :: rest) = firstPiece c cs := by
  have hbest : Rule.best Rule.table (c :: (cs ++ d :: rest)) = Rule.best Rule.table (c :: cs) :=
    Rule.best_append h
  unfold firstPiece
  rw [hbest]
  cases hrule : Rule.best Rule.table (c :: cs) with
  | none => rfl
  | some found =>
    obtain ⟨rule, n⟩ := found
    have hle : n ≤ (c :: cs).length :=
      Pattern.longest_le (Rule.longest_of_reach (Rule.mem_of_best hrule).2)
    have htake : ((c :: cs) ++ d :: rest).take n = (c :: cs).take n :=
      List.take_append_of_le_length hle
    rw [List.cons_append] at htake
    simp only [htake]

/-- The text goes past a whole piece at once. -/
theorem scan_append (w rest : List Char) (offset : Nat) (touchable : Bool) :
    scan w.length offset touchable (w ++ rest) = scan 0 (offset + byteLength w) touchable rest := by
  induction w generalizing offset with
  | nil => rfl
  | cons c w ih =>
    rw [List.length_cons, List.cons_append, scan, ih, byteLength, Nat.add_assoc]

end Token

end CallGrammar
