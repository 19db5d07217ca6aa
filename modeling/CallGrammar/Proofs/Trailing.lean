import CallGrammar.Proofs.Insertion
import CallGrammar.Proofs.Openers
import CallGrammar.Proofs.Reading.Follow

/-!
# CallGrammar.Proofs.Trailing

A comma may stand behind the last element of a list.  Which tokens close a list that is not
empty is told from the tokens alone (`Listed`, `Unended`); before any of these a comma may be
put, and the tokens derive the same tree.

The induction goes over derivations.  A phrase is told what stands before it, as far as that
decides what a bracket closes: a parenthesis behind a name (`Clear`), a bar behind a call.  The
closer of a list comes after its elements, so these derive with the comma before it.
-/

namespace CallGrammar

variable {σ : Type}

/-! ## lists -/

/-- Behind the tokens `before`, the `items` with the brackets around them are arguments in
parentheses, an array or the keys of an access, a hash, or the parameters of a lambda. -/
inductive Listed (before : List (Token σ)) (opener : Token σ) :
    (items : List (Token σ)) → (closer : Token σ) → Prop where
  | arguments {name : String} {items : List (Token σ)} {closer : Token σ}
      (hname : lastKind none before = some (.name name))
      (hopener : opener.kind = .symbol .openParen) (hitems : Balanced items)
      (hcloser : closer.kind = .symbol .closeParen) : Listed before opener items closer
  | array {items : List (Token σ)} {closer : Token σ}
      (hopener : opener.kind = .symbol .openBracket) (hitems : Balanced items)
      (hcloser : closer.kind = .symbol .closeBracket) : Listed before opener items closer
  | hash {key rest : List (Token σ)} {arrow closer : Token σ}
      (hopener : opener.kind = .symbol .openBrace) (hkey : Balanced key)
      (harrow : arrow.kind = .symbol .arrow) (hrest : Balanced rest)
      (hcloser : closer.kind = .symbol .closeBrace) :
      Listed before opener (key ++ arrow :: rest) closer
  | parameters {items : List (Token σ)} {closer : Token σ}
      (hopener : opener.kind = .symbol .pipe) (hitems : AllKinds Kind.isParameter items)
      (hcloser : closer.kind = .symbol .pipe) : Listed before opener items closer

/-- The kind of the last token that is no line break. -/
def lastWord (ts : List (Token σ)) : Option Kind :=
  ((ts.map (·.kind)).filter (· != .newline)).getLast?

/-- There is an element, and no comma after the last one. -/
def Unended (items : List (Token σ)) : Prop := ∃ k ∈ lastWord items, k ≠ .symbol .comma

/-- The brackets and the bar that close lists. -/
def Kind.closesList : Kind → Bool
  | .symbol .closeParen | .symbol .closeBracket | .symbol .closeBrace | .symbol .pipe => true
  | _ => false

section

variable {before items ts us : List (Token σ)} {opener closer t : Token σ}

/-- The last token but for line breaks is the last of the second tokens, if there is one. -/
theorem lastWord_append (ts us : List (Token σ)) :
    lastWord (ts ++ us) = (lastWord us).or (lastWord ts) := by
  simp [lastWord, List.getLast?_append]

theorem lastWord_cons (t : Token σ) (ts : List (Token σ)) :
    lastWord (t :: ts) = (lastWord ts).or (lastWord [t]) := lastWord_append [t] ts

/-- Line breaks have no last token. -/
theorem lastWord_newlines (h : Newlines ts) : lastWord ts = none := by
  simpa [lastWord, List.filter_eq_nil_iff] using fun t ht => eq_of_beq (h t ht)

theorem not_unended_newlines (h : Newlines ts) : ¬ Unended ts := by
  rintro ⟨k, hk, -⟩
  rw [lastWord_newlines h] at hk
  cases hk

/-- Behind a comma there has to be another element. -/
theorem Unended.behind (h : Unended (ts ++ t :: us)) (ht : t.kind = .symbol .comma) :
    Unended us := by
  obtain ⟨k, hk, hcomma⟩ := h
  rw [lastWord_append, lastWord_cons] at hk
  cases hus : lastWord us with
  | none =>
    rw [hus] at hk
    simp [lastWord, ht] at hk
    exact absurd hk.symm hcomma
  | some k' =>
    rw [hus] at hk
    exact ⟨k', hus, by simp_all⟩

/-- Line breaks before do not change what stands last. -/
theorem Unended.of_newlines (h : Unended (ts ++ us)) (hts : Newlines ts) : Unended us := by
  obtain ⟨k, hk, hcomma⟩ := h
  rw [lastWord_append, lastWord_newlines hts, Option.or_none] at hk
  exact ⟨k, hk, hcomma⟩

theorem Listed.closesList (h : Listed before opener items closer) :
    closer.kind.closesList = true := by
  cases h with
  | arguments _ _ _ hcloser | array _ _ hcloser | hash _ _ _ _ hcloser | parameters _ _ hcloser =>
    rw [hcloser]
    rfl

/-- Between brackets stands what closes what it opens. -/
theorem Listed.level (h : Listed before opener items closer)
    (hcloser : closer.kind.closesGroup = true) :
    opener.kind.opensGroup = true ∧ level 0 items = some 0 := by
  cases h with
  | arguments _ hopener hitems _ => exact ⟨by rw [hopener]; rfl, hitems.level 0⟩
  | array hopener hitems _ => exact ⟨by rw [hopener]; rfl, hitems.level 0⟩
  | hash hopener hkey harrow hrest _ =>
    refine ⟨by rw [hopener]; rfl, ?_⟩
    rw [level_append, hkey.level, Option.bind_some, level_inner (by rw [harrow]; rfl), hrest.level]
  | parameters _ _ hpipe =>
    rw [hpipe] at hcloser
    cases hcloser

end

/-! ## commas before closers -/

/-- Tokens of which some are marked, each the closer of a list that has an element and no comma
after the last one; and a comma. -/
structure Trailing (σ : Type) extends Insertion σ where
  tokens : List (Token σ)
  added_kind : added.kind = .symbol .comma
  marked_kind : ∀ t, marked t = true → t.kind.closesList = true
  listed : ∀ inside closer rest, tokens = inside ++ closer :: rest → marked closer = true →
    ∃ before opener items, inside = before ++ opener :: items ∧
      Listed before opener items closer ∧ Unended items

namespace Trailing

open Insertion

variable {w : Trailing σ} {t : Token σ} {ts : List (Token σ)} {k : Kind}

/-- No comma is put before a token that closes no list. -/
theorem mark_of_kind (ht : t.kind.closesList = false) : w.mark t = [] := by
  refine mark_of_unmarked (Bool.eq_false_iff.2 fun hmarked => ?_)
  rw [w.marked_kind t hmarked] at ht
  cases ht

/-- Such a token is passed over. -/
theorem put_cons_of_kind (ht : t.kind.closesList = false) : w.put (t :: ts) = t :: w.put ts :=
  put_cons (mark_of_kind ht)

theorem put_single (ht : t.kind.closesList = false) : w.put [t] = [t] := put_cons_of_kind ht

/-- Nothing is put in among such tokens. -/
theorem put_all {p : Kind → Bool} (hp : ∀ k, p k = true → k.closesList = false)
    (h : AllKinds p ts) : w.put ts = ts :=
  put_of_mark fun t ht => mark_of_kind (hp t.kind (h t ht))

theorem put_newlines (h : Newlines ts) : w.put ts = ts :=
  put_all (fun k hk => by rw [eq_of_beq hk]; rfl) h

theorem put_separators (h : Separators ts) : w.put ts = ts := by
  refine put_all (fun k hk => ?_) h
  obtain hk | hk := Bool.or_eq_true_iff.1 hk <;> rw [eq_of_beq hk] <;> rfl

/-! ## what is seen of the tokens -/

/-- The first token is another one only where a comma is put first. -/
theorem headKind_put_ne (h : headKind ts ≠ some k) (hk : k ≠ .symbol .comma) :
    headKind (w.put ts) ≠ some k := by
  obtain heq | heq := w.headKind_put ts
  · rwa [heq]
  · rw [heq, w.added_kind]
    exact fun hcomma => hk (Option.some.inj hcomma).symm

/-- Before a token that closes no list, nothing is put. -/
theorem lead_of_headKind (h : headKind ts = some k) (hk : k.closesList = false) :
    w.lead ts = [] := by
  cases ts with
  | nil => rfl
  | cons t ts =>
    rw [headKind_cons, Option.some.injEq] at h
    exact mark_of_kind (by rw [h, hk])

/-- The first kind past line breaks is as before, or the comma is. -/
theorem headKindPastNewlines_put (ts : List (Token σ)) :
    headKindPastNewlines (w.put ts) = headKindPastNewlines ts ∨
      headKindPastNewlines (w.put ts) = some (.symbol .comma) := by
  obtain hall | ⟨nl, t, us, rfl, hnl, ht⟩ := newlines_or_cons ts
  · rw [put_newlines hall]
    exact .inl rfl
  · rw [put_append, put_newlines hnl, headKindPastNewlines_append_of_newlines hnl,
      headKindPastNewlines_append_cons hnl ht, headKindPastNewlines]
    obtain hlead | hlead := w.lead_eq (t :: us)
    · rw [put_cons hlead, List.dropWhile_cons_of_neg (by simpa using ht)]
      exact .inl rfl
    · rw [put_eq, hlead, List.singleton_append,
        List.dropWhile_cons_of_neg (by rw [w.added_kind]; decide), headKind_cons, w.added_kind]
      exact .inr rfl

/-- No keyword comes first that did not before. -/
theorem headKindPastNewlines_put_ne {word : Keyword}
    (h : headKindPastNewlines ts ≠ some (.keyword word)) :
    headKindPastNewlines (w.put ts) ≠ some (.keyword word) := by
  obtain heq | heq := w.headKindPastNewlines_put ts
  · rwa [heq]
  · rw [heq]
    simp

end Trailing

end CallGrammar
