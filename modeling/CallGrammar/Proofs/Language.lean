import CallGrammar.Proofs.Munch
import Mathlib.Computability.Language

/-!
# CallGrammar.Proofs.Language

Patterns as languages.  `Pattern.language` says which texts a pattern matches, in the
usual operations on languages and with no regard to how a text is read.  The search for the
longest match is right for it:

1. derivatives read one character (`cons_mem_language`), so membership is decidable;
2. what `longest` finds is a text of the language (`take_mem_language`), and no front of
   the text that is in the language is longer (`exists_longest`).
-/

namespace CallGrammar

open scoped Computability

namespace Pattern

variable {p q : Pattern} {c : Char} {cs w : List Char} {n : Nat}

/-- The texts that a pattern matches. -/
def language : Pattern → Language Char
  | never => 0
  | nothing => 1
  | one accepts => {w | ∃ c, accepts c = true ∧ w = [c]}
  | seq p q => p.language * q.language
  | alt p q => p.language + q.language
  | star p => p.language∗

@[simp] theorem mem_language_never : w ∈ never.language ↔ False := Iff.rfl

@[simp] theorem mem_language_nothing : w ∈ nothing.language ↔ w = [] := Iff.rfl

@[simp] theorem mem_language_one {accepts : Char → Bool} :
    w ∈ (one accepts).language ↔ ∃ c, accepts c = true ∧ w = [c] := Iff.rfl

@[simp] theorem mem_language_alt : w ∈ (alt p q).language ↔ w ∈ p.language ∨ w ∈ q.language :=
  Iff.rfl

@[simp] theorem mem_language_seq :
    w ∈ (seq p q).language ↔ ∃ u ∈ p.language, ∃ v ∈ q.language, u ++ v = w :=
  Language.mem_mul

/-! ## building -/

/-- Dropping parts that match nothing, or only the empty text, changes no language. -/
@[simp] theorem language_followedBy (p q : Pattern) :
    (p.followedBy q).language = (seq p q).language := by
  unfold followedBy
  split <;> simp [language]

/-- A choice that is simplified has the texts of both. -/
@[simp] theorem language_or (p q : Pattern) : (p.or q).language = (alt p q).language := by
  unfold or
  split <;> simp [language]

theorem mem_language_char {d : Char} : w ∈ (char d).language ↔ w = [d] := by
  simp [char]

/-- A fixed text matches itself alone. -/
theorem mem_language_text {s : String} : w ∈ (text s).language ↔ w = s.toList := by
  unfold text
  induction s.toList generalizing w with
  | nil => rfl
  | cons c cs ih =>
    simp [mem_language_char, ih, eq_comm]

/-- A run of characters of a class. -/
theorem all_of_mem_plus {accepts : Char → Bool} (h : w ∈ (plus (one accepts)).language) :
    ∀ c ∈ w, accepts c = true := by
  rw [plus, language_followedBy, mem_language_seq] at h
  obtain ⟨u, ⟨d, hd, rfl⟩, v, hv, rfl⟩ := h
  obtain ⟨ws, rfl, hws⟩ := Language.mem_kstar.1 hv
  intro c hc
  obtain rfl | hc := List.mem_cons.1 hc
  · exact hd
  · obtain ⟨w, hw, hc⟩ := List.mem_flatten.1 hc
    obtain ⟨e, he, rfl⟩ := hws w hw
    rwa [List.mem_singleton.1 hc]

/-! ## reading a character -/

/-- The empty text is of the pattern if the pattern says so. -/
theorem nil_mem_language : [] ∈ p.language ↔ p.nullable = true := by
  induction p with
  | never => simp [nullable]
  | nothing => simp [nullable]
  | one accepts => simp [nullable]
  | seq p q ihp ihq => simp [nullable, ihp, ihq]
  | alt p q ihp ihq => simp [nullable, ihp, ihq]
  | star p => exact iff_of_true (Language.nil_mem_kstar _) rfl

/-- Some number of texts, the first of which begins with `c`. -/
theorem cons_mem_kstar {l : Language Char} :
    c :: w ∈ l∗ ↔ ∃ u v, c :: u ∈ l ∧ v ∈ l∗ ∧ u ++ v = w := by
  constructor
  · intro h
    obtain ⟨ws, hws, hall⟩ := Language.mem_kstar_iff_exists_nonempty.1 h
    cases ws with
    | nil => cases hws
    | cons u ws =>
      obtain ⟨hu, hne⟩ := hall u List.mem_cons_self
      obtain ⟨d, u, rfl⟩ := List.exists_cons_of_ne_nil hne
      obtain ⟨rfl, rfl⟩ := List.cons.inj hws
      exact ⟨u, ws.flatten, hu,
        Language.join_mem_kstar fun y hy => (hall y (List.mem_cons_of_mem _ hy)).1, rfl⟩
  · rintro ⟨u, v, hu, hv, rfl⟩
    obtain ⟨ws, rfl, hws⟩ := Language.mem_kstar.1 hv
    have hcons : ∀ y ∈ (c :: u) :: ws, y ∈ l := by
      intro y hy
      obtain rfl | hy := List.mem_cons.1 hy
      · exact hu
      · exact hws y hy
    exact Language.join_mem_kstar hcons

theorem cons_mem_mul {l m : Language Char} :
    c :: w ∈ l * m ↔ (∃ u v, c :: u ∈ l ∧ v ∈ m ∧ u ++ v = w) ∨ ([] ∈ l ∧ c :: w ∈ m) := by
  rw [Language.mem_mul]
  constructor
  · rintro ⟨u, hu, v, hv, huv⟩
    cases u with
    | nil =>
      rw [List.nil_append] at huv
      exact .inr ⟨hu, huv ▸ hv⟩
    | cons d u =>
      obtain ⟨rfl, rfl⟩ := List.cons.inj huv
      exact .inl ⟨u, v, hu, hv, rfl⟩
  · rintro (⟨u, v, hu, hv, rfl⟩ | ⟨hl, hm⟩)
    · exact ⟨c :: u, hu, v, hv, rfl⟩
    · exact ⟨[], hl, c :: w, hm, rfl⟩

/-- The derivative is what may follow a character. -/
theorem cons_mem_language : c :: w ∈ p.language ↔ w ∈ (p.derivative c).language := by
  induction p generalizing w with
  | never => simp [derivative]
  | nothing => simp [derivative]
  | one accepts =>
    by_cases hc : accepts c = true
    · simp [derivative, hc]
    · simp [derivative, hc]
  | seq p q ihp ihq =>
    have hseq : c :: w ∈ (seq p q).language ↔ w ∈ (seq (p.derivative c) q).language ∨
        (p.nullable = true ∧ w ∈ (q.derivative c).language) := by
      rw [language, cons_mem_mul, nil_mem_language, ihq, mem_language_seq]
      simp only [ihp, exists_and_left]
    by_cases hnull : p.nullable = true
    · rw [hseq, derivative, if_pos hnull, language_or, mem_language_alt, language_followedBy]
      simp only [hnull, true_and]
    · rw [hseq, derivative, if_neg hnull, language_followedBy]
      simp only [hnull, Bool.false_eq_true, false_and, or_false]
  | alt p q ihp ihq =>
    rw [mem_language_alt, ihp, ihq, derivative, language_or, mem_language_alt]
  | star p ih =>
    rw [language, cons_mem_kstar, derivative, language_followedBy, mem_language_seq]
    simp only [ih, exists_and_left, language]

/-- A text is of the pattern if what is left of it after the text may be empty. -/
theorem mem_language : w ∈ p.language ↔ (p.derivatives w).nullable = true := by
  induction w generalizing p with
  | nil => exact nil_mem_language
  | cons c w ih => exact cons_mem_language.trans ih

instance : DecidablePred (· ∈ p.language) := fun _ => decidable_of_iff _ mem_language.symm

/-! ## the longest match -/

/-- What a pattern takes is a text of it. -/
theorem take_mem_language (h : p.longest cs = some n) : cs.take n ∈ p.language := by
  induction cs generalizing p n with
  | nil =>
    simp only [longest, Option.ite_none_right_eq_some] at h
    rw [List.take_nil]
    exact nil_mem_language.2 h.1
  | cons c cs ih =>
    rw [longest_cons] at h
    split at h
    · next m hm =>
      cases h
      exact cons_mem_language.2 (ih hm)
    · simp only [Option.ite_none_right_eq_some, Option.some.injEq] at h
      obtain ⟨hnull, rfl⟩ := h
      exact nil_mem_language.2 hnull

/-- A front of the text that is in the language is found, or a longer one. -/
theorem exists_longest (hw : w <+: cs) (hmem : w ∈ p.language) :
    ∃ n, p.longest cs = some n ∧ w.length ≤ n := by
  obtain ⟨rest, rfl⟩ := hw
  induction w generalizing p with
  | nil =>
    have hnull := nil_mem_language.1 hmem
    cases rest with
    | nil => exact ⟨0, by simp [longest, hnull], Nat.le_refl 0⟩
    | cons d rest =>
      rw [List.nil_append, longest_cons]
      split
      · exact ⟨_, rfl, Nat.zero_le _⟩
      · exact ⟨0, by rw [if_pos hnull], Nat.le_refl 0⟩
  | cons c w ih =>
    obtain ⟨n, hn, hle⟩ := ih (cons_mem_language.1 hmem)
    exact ⟨n + 1, by rw [List.cons_append, longest_cons, hn], Nat.succ_le_succ hle⟩

/-- A fixed text that stands there is found as a whole. -/
theorem longest_text (s : String) (rest : List Char) :
    (text s).longest (s.toList ++ rest) = some s.toList.length := by
  obtain ⟨n, hn, -⟩ :=
    exists_longest (List.prefix_append s.toList rest) (mem_language_text.2 rfl)
  have hlen := congrArg List.length (mem_language_text.1 (take_mem_language hn))
  rw [List.length_take_of_le (longest_le hn)] at hlen
  rw [hn, hlen]

end Pattern

end CallGrammar
