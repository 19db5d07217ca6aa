import CallGrammar.Proofs.Division
import CallGrammar.Proofs.Language

/-!
# CallGrammar.Proofs.Closing

What closes a bracketed comment or a string.

1. A comment goes up to the first `*/` after its opener (`mem_language_blockComment`), so
   an opener begins one where some `*/` follows it (`longest_blockComment_eq_none`).
2. A string goes up to the first quote that no backslash precedes; where one is closed,
   nothing more is asked for, and where none is closed, any plain character goes on with it
   (`Quoted.open_or_over`).
-/

namespace CallGrammar

/-- A pattern of no text is one of no text after more characters. -/
theorem Pattern.isEmpty_derivatives {p : Pattern} (h : p.isEmpty = true) (w : List Char) :
    (p.derivatives w).isEmpty = true := by
  induction w generalizing p with
  | nil => exact h
  | cons c w ih =>
    have hnever : p.derivative c = never := derivative_eq_never (opensWith_of_isEmpty c h)
    have hempty : (p.derivative c).isEmpty = true := by rw [hnever]; rfl
    exact ih hempty

/-! ## comments -/

namespace Comment

open Pattern

variable {cs v w inner : List Char} {c : Char}

/-- The two characters that close a bracketed comment. -/
def closing : List Char := ['*', '/']

/-- In a comment, a character goes on with it, and a star may begin its end. -/
theorem derivative_inside (c : Char) :
    inside.derivative c = if c = '*' then starred else inside := by
  split
  · next hc => rw [hc]; rfl
  · next hc =>
    simp [inside, body, closer, slash, stars, Pattern.derivative, Pattern.char,
      Pattern.nullable, followedBy, Pattern.or, hc]

/-- Behind a star, anything but a slash goes on with the comment. -/
theorem derivative_starred (hc : c ≠ '/') :
    starred.derivative c = if c = '*' then starred else inside := by
  split
  · next hstar => rw [hstar]; rfl
  · next hstar =>
    simp [starred, inside, body, closer, slash, stars, Pattern.derivative, Pattern.char,
      Pattern.nullable, followedBy, Pattern.or, hc, hstar]

/-- While nothing has closed the comment, only a star at the end matters. -/
theorem derivatives_inside (h : ¬ closing <:+: v) :
    inside.derivatives v = if v.getLast? = some '*' then starred else inside := by
  induction v using List.reverseRecOn with
  | nil => rfl
  | append_singleton v c ih =>
    have hv : ¬ closing <:+: v := fun hv => h (hv.trans (List.infix_append [] v [c]))
    have hstep (p : Pattern) : p.derivatives [c] = p.derivative c := rfl
    rw [derivatives_append, ih hv, hstep, List.getLast?_concat]
    simp only [Option.some.injEq]
    split
    · next hstar =>
      obtain ⟨u, rfl⟩ := List.getLast?_eq_some_iff.1 hstar
      have hc : c ≠ '/' := by
        rintro rfl
        exact h ⟨u, [], by simp [closing]⟩
      exact derivative_starred hc
    · exact derivative_inside c

/-- The first place where a comment may be closed. -/
theorem exists_first_closing (h : closing <:+: cs) :
    ∃ inner rest, cs = inner ++ (closing ++ rest) ∧ ¬ closing <:+: inner ++ ['*'] := by
  induction cs with
  | nil => exact absurd (List.eq_nil_of_infix_nil h) (List.cons_ne_nil _ _)
  | cons c cs ih =>
    by_cases hfirst : closing <+: c :: cs
    · obtain ⟨rest, hrest⟩ := hfirst
      exact ⟨[], rest, hrest.symm, by decide⟩
    · obtain ⟨inner, rest, rfl, hinner⟩ := ih ((List.infix_cons_iff.1 h).resolve_left hfirst)
      refine ⟨c :: inner, rest, rfl, fun hclosing => ?_⟩
      obtain hclosing | hclosing := List.infix_cons_iff.1 hclosing
      · -- two characters at the front of `inner ++ ['*']` are at the front of the text
        apply hfirst
        have hfront : c :: (inner ++ ['*']) <+: c :: (inner ++ (closing ++ rest)) :=
          ⟨'/' :: rest, by simp [closing]⟩
        exact hclosing.trans hfront
      · exact hinner hclosing

/-- The rest of a comment is what ends with the first `*/`. -/
theorem mem_language_inside :
    w ∈ inside.language ↔ ∃ inner, w = inner ++ closing ∧ ¬ closing <:+: inner ++ ['*'] := by
  have hstarred {inner : List Char} (h : ¬ closing <:+: inner ++ ['*']) :
      inside.derivatives (inner ++ closing) = .nothing := by
    have hsplit : inner ++ closing = (inner ++ ['*']) ++ ['/'] := by simp [closing]
    rw [hsplit, derivatives_append, derivatives_inside h, List.getLast?_concat, if_pos rfl]
    rfl
  rw [mem_language]
  constructor
  · intro hnull
    by_cases hclosing : closing <:+: w
    · obtain ⟨inner, rest, rfl, hinner⟩ := exists_first_closing hclosing
      rw [← List.append_assoc, derivatives_append, hstarred hinner] at hnull
      cases rest with
      | nil => exact ⟨inner, by rw [List.append_nil], hinner⟩
      | cons d rest =>
        have hnever : nothing.derivatives (d :: rest) = never := derivatives_never rest
        rw [hnever] at hnull
        cases hnull
    · rw [derivatives_inside hclosing] at hnull
      split at hnull <;> cases hnull
  · rintro ⟨inner, rfl, hinner⟩
    rw [hstarred hinner]
    rfl

/-- A comment goes up to the first `*/` after its opener. -/
theorem mem_language_blockComment :
    w ∈ Rule.blockComment.language ↔
      ∃ inner, w = '/' :: '*' :: (inner ++ closing) ∧ ¬ closing <:+: inner ++ ['*'] := by
  have hsplit : Rule.blockComment = .seq (.text "/*") inside := rfl
  rw [hsplit, mem_language_seq]
  constructor
  · rintro ⟨u, hu, v, hv, rfl⟩
    obtain rfl := mem_language_text.1 hu
    obtain ⟨inner, rfl, hinner⟩ := mem_language_inside.1 hv
    exact ⟨inner, rfl, hinner⟩
  · rintro ⟨inner, rfl, hinner⟩
    exact ⟨_, mem_language_text.2 rfl, _, mem_language_inside.2 ⟨inner, rfl, hinner⟩, rfl⟩

/-- An opener begins no comment exactly where no closer follows it. -/
theorem longest_blockComment_eq_none :
    Rule.blockComment.longest ('/' :: '*' :: cs) = none ↔ ¬ closing <:+: cs := by
  constructor
  · intro hnone hclosing
    obtain ⟨inner, rest, rfl, hinner⟩ := exists_first_closing hclosing
    have hfront : '/' :: '*' :: (inner ++ closing) <+: '/' :: '*' :: (inner ++ (closing ++ rest)) :=
      ⟨rest, by simp⟩
    obtain ⟨n, hn, -⟩ :=
      exists_longest hfront (mem_language_blockComment.2 ⟨inner, rfl, hinner⟩)
    rw [hnone] at hn
    cases hn
  · intro hclosing
    cases hn : Rule.blockComment.longest ('/' :: '*' :: cs) with
    | none => rfl
    | some n =>
      obtain ⟨inner, htake, -⟩ := mem_language_blockComment.1 (take_mem_language hn)
      have hfront : '/' :: '*' :: (inner ++ closing) <+: '/' :: '*' :: cs :=
        htake ▸ List.take_prefix n _
      have hfront : inner ++ closing <+: cs := by simpa using hfront
      exact absurd ((List.suffix_append inner closing).isInfix.trans hfront.isInfix) hclosing

end Comment

/-! ## strings -/

namespace Quoted

open Pattern

variable {quote c : Char} {p q : Pattern} {cs w : List Char}

/-- A string begins with its quote. -/
theorem opensWith_string (quote c : Char) :
    (Rule.closedString quote).opensWith c = (c == quote) ∧
      (Rule.openString quote).opensWith c = (c == quote) := by
  simp [Rule.closedString, Rule.openString, Pattern.opensWith, Pattern.char, Pattern.nullable,
    Pattern.followedBy, Pattern.or]

/-- A string begins with its quote. -/
theorem exists_of_mem_openString (h : w ∈ (Rule.openString quote).language) :
    ∃ cs, w = quote :: cs := by
  rw [Rule.openString, language_followedBy, mem_language_seq] at h
  obtain ⟨u, hu, v, -, rfl⟩ := h
  exact ⟨v, by rw [mem_language_char.1 hu, List.singleton_append]⟩

/-- The quote alone is one. -/
theorem quote_mem_openString : [quote] ∈ (Rule.openString quote).language := by
  rw [Rule.openString, language_followedBy, mem_language_seq]
  exact ⟨[quote], mem_language_char.2 rfl, [], Language.nil_mem_kstar _, rfl⟩

/-- A plain character goes on with an open string. -/
theorem Open.nullable_derivative (h : Open quote p q) (hquote : c ≠ quote) (hslash : c ≠ '\\')
    (hnewline : c ≠ '\n') : (q.derivative c).nullable = true := by
  cases h with
  | within => rw [derivative_within_plain hquote hslash]; rfl
  | escaped => rw [derivative_escaped hnewline]; rfl

/-- What ends an open string asks for nothing more. -/
theorem Open.derivative_eq_never (h : Open quote p q) (hempty : (q.derivative c).isEmpty = true) :
    q.derivative c = .never := by
  have hstar {r : Pattern} : (r.followedBy (Quoted.within quote)).isEmpty = true →
      r.followedBy (Quoted.within quote) = .never := by
    unfold followedBy
    split <;> simp [Quoted.within, isEmpty]
  cases h with
  | within => exact hstar hempty
  | escaped => exact hstar hempty

/-- After more characters the string is still open, or neither of its rules takes anything
more. -/
theorem Open.derivatives (hquote : quote ≠ '\\') (h : Open quote p q) (cs : List Char) :
    Open quote (p.derivatives cs) (q.derivatives cs) ∨
      (p.derivatives cs).isEmpty = true ∧ q.derivatives cs = .never := by
  induction cs generalizing p q with
  | nil => exact .inl h
  | cons c cs ih =>
    obtain hopen | ⟨hp, hq⟩ := (h.step hquote).2 c
    · exact ih hopen
    · have hnever := h.derivative_eq_never hq
      have hderivatives : q.derivatives (c :: cs) = Pattern.never.derivatives cs := by
        rw [← hnever]
        rfl
      exact .inr ⟨isEmpty_derivatives hp cs, hderivatives.trans (derivatives_never cs)⟩

/-- After its quote, a string is open, or over: closed, or broken off. -/
theorem open_or_over (hquote : quote ≠ '\\') (cs : List Char) :
    Open quote ((Rule.closedString quote).derivatives (quote :: cs))
      ((Rule.openString quote).derivatives (quote :: cs)) ∨
    ((Rule.closedString quote).derivatives (quote :: cs)).isEmpty = true ∧
      (Rule.openString quote).derivatives (quote :: cs) = .never := by
  have hclosed : (Rule.closedString quote).derivative quote
      = .seq (within quote) (.char quote) := by
    simp [Rule.closedString, Rule.openString, within, Pattern.derivative, Pattern.char,
      Pattern.nullable, followedBy, Pattern.or]
  have hopen : (Rule.openString quote).derivative quote = within quote := by
    simp [Rule.openString, within, Pattern.derivative, Pattern.char, Pattern.nullable, followedBy,
      Pattern.or]
  rw [Pattern.derivatives, Pattern.derivatives, List.foldl_cons, List.foldl_cons, hclosed, hopen]
  exact Open.derivatives hquote .within cs

end Quoted

end CallGrammar
