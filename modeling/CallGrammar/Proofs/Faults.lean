import CallGrammar.Proofs.Extent
import CallGrammar.Proofs.Session
import CallGrammar.Proofs.Words

/-!
# CallGrammar.Proofs.Faults

Invalid input is neither accepted nor skipped.  No phrase has an invalid token, and no
step goes past one; so a source with a lexical error is refused at its first one or
before, and no session of readings gets any further.
-/

namespace CallGrammar

/-! ## the first fault -/

namespace Token

/-- The first fault is that of an invalid token. -/
theorem exists_invalid {ts : List (Token Span)} {first : LexicalError}
    (h : (errors ts).head? = some first) :
    ∃ t ∈ ts, t.kind.isValid = false ∧ t.span.start = first.position := by
  have hmem : first ∈ errors ts := List.mem_of_head? h
  obtain ⟨t, ht, hfirst⟩ := List.mem_filterMap.1 hmem
  refine ⟨t, ht, ?_⟩
  unfold LexicalError.ofToken? at hfirst
  split at hfirst
  · next fault hk =>
    cases hfirst
    exact ⟨by rw [hk]; rfl, rfl⟩
  · cases hfirst

/-- A comment is no fault. -/
theorem errors_significant (ts : List (Token Span)) : errors (significant ts) = errors ts := by
  induction ts with
  | nil => rfl
  | cons t ts ih =>
    unfold errors significant at ih ⊢
    rw [List.filter_cons]
    split
    · rw [List.filterMap_cons, List.filterMap_cons, ih]
    · next hcomment =>
      have hnone : LexicalError.ofToken? t = none := by
        obtain ⟨kind, span, touching⟩ := t
        cases kind <;> first | rfl | simp [Kind.isComment] at hcomment
      rw [List.filterMap_cons, hnone, ih]

end Token

/-! ## refusals before a fault -/

/-- An invalid token that was not passed is still ahead. -/
theorem Cursor.mem_ahead_of_invalid {σ : Type} {c : Cursor σ} {t : Token σ} (h : t ∈ c.tokens)
    (hpassed : AllKinds Kind.isValid c.passed) (ht : t.kind.isValid = false) : t ∈ c.ahead := by
  obtain h | h := List.mem_append.1 h
  · have hvalid := hpassed t (List.mem_reverse.1 h)
    rw [ht] at hvalid
    cases hvalid
  · exact h

/-- A construct is found open at the end of the input only. -/
theorem Refused.category_ne_unterminated {σ : Type} [Location σ] {context : Context σ}
    {c : Cursor σ} {e : ParseError σ} (h : Refused context c e) (hnext : c.ahead ≠ []) :
    e.category ≠ .unterminatedConstruct := by
  cases h with
  | unterminated _ hend => exact absurd hend hnext
  | _ => simp [ParseError.category]

/-- A token that was passed starts before those that are ahead. -/
theorem Cursor.start_le_of_passed {c : Cursor Span} {t u : Token Span} (hsorted : Sorted c.tokens)
    (hu : u ∈ c.passed) (ht : t ∈ c.ahead) : u.span.start ≤ t.span.start := by
  have hu : u ∈ c.passed.reverse := List.mem_reverse.2 hu
  have hle := hsorted.stop_le_start hu ht
  have hlt := hsorted.nonempty u (List.mem_append_left _ hu)
  omega

/-- The token under the cursor starts no later than any token ahead. -/
theorem Cursor.start_le_of_head {c : Cursor Span} {t u : Token Span} (hsorted : Sorted c.tokens)
    (hu : c.ahead.head? = some u) (ht : t ∈ c.ahead) : u.span.start ≤ t.span.start := by
  obtain ⟨us, hahead⟩ := List.head?_eq_some_iff.1 hu
  have hright : Sorted (u :: us) := hahead ▸ hsorted.right
  rw [hahead] at ht
  obtain rfl | ht := List.mem_cons.1 ht
  · exact Nat.le_refl _
  · have hle := (List.pairwise_cons.1 hright.ordered).1 t ht
    have hlt := hright.nonempty u List.mem_cons_self
    omega

/-- A refusal starts no later than the tokens that are ahead. -/
theorem Refused.start_le {context : Context Span} {c : Cursor Span} {e : ParseError Span}
    {t : Token Span} (h : Refused context c e) (hsorted : Sorted c.tokens)
    (hnext : t ∈ c.ahead) : e.span.start ≤ t.span.start := by
  have hpassed : ∀ u ∈ c.passed, u.span.start ≤ t.span.start :=
    fun u hu => Cursor.start_le_of_passed hsorted hu hnext
  have hhead : ∀ u, c.ahead.head? = some u → u.span.start ≤ t.span.start :=
    fun u hu => Cursor.start_le_of_head hsorted hu hnext
  cases h with
  | strayComma ht hk => exact ht.elim (hpassed _) (hhead _)
  | @needsParentheses u name ts before hts hu hcalls hopens hparen =>
    have hstart : (through u.span ts).start ≤ u.span.start := by
      unfold through
      split
      · exact Nat.le_refl _
      · exact Nat.min_le_left _ _
    have hu : u ∈ c.passed := by rw [hts]; simp
    exact Nat.le_trans hstart (hpassed u hu)
  | unexpected expected =>
    obtain ⟨u, us, hahead⟩ := List.exists_cons_of_ne_nil (List.ne_nil_of_mem hnext)
    have hplace : c.place context.finish = u.span := by rw [Cursor.place, hahead]; rfl
    change (c.place context.finish).start ≤ _
    rw [hplace]
    exact hhead u (by rw [hahead]; rfl)
  | emptyAccess hclosed => exact hpassed _ (by rw [hclosed]; exact List.mem_cons_self)
  | @unassignable ts before target hts htarget hk hnot =>
    have hts' : Sorted ts := by
      have hleft := hsorted.left
      rw [hts, List.reverse_append, List.reverse_reverse] at hleft
      exact hleft.right
    have hcovers : Covers target.span ts := by
      obtain htarget | htarget := htarget
      · exact htarget.extends hts'
      · exact htarget.extends hts'
    obtain ⟨u, v, hu, -, hspan⟩ := hcovers
    have hu : u ∈ c.passed := by
      rw [hts]
      exact List.mem_append_left _ (List.mem_reverse.2 (List.mem_of_head? hu))
    change target.span.start ≤ _
    rw [hspan]
    exact hpassed u hu
  | unterminated hinside hend =>
    rw [hend] at hnext
    cases hnext

/-! ## sources -/

/-- A source that is accepted has no lexical error. -/
theorem errors_of_parse {calls : StatementCalls} {source : String} {p : Program Span}
    (h : parse calls source = .ok p) : Token.errors (Token.ofText source) = [] := by
  cases herrors : Token.errors (Token.ofText source) with
  | nil => rfl
  | cons first rest =>
    rw [← Token.errors_significant] at herrors
    obtain ⟨t, ht, hinvalid, -⟩ := Token.exists_invalid (congrArg List.head? herrors)
    have hvalid := (reads_of_parse h).valid t ht
    rw [hinvalid] at hvalid
    cases hvalid

/-- **Invalid input**: a source with a lexical error is refused, for something that
begins no later than the first one and is no open construct; and whatever is read from
it, the cursor stays among the tokens of the source and passes valid ones only. -/
theorem refused_of_lexicalError (calls : StatementCalls) {source : String} {first : LexicalError}
    (h : (Token.errors (Token.ofText source)).head? = some first) :
    (∃ e, parse calls source = .error e ∧ e.category ≠ .unterminatedConstruct ∧
      e.span.start ≤ first.position) ∧
    ∀ requests : List Request,
      ((Parser.ofSource calls source).session requests).cursor.tokens
        = Token.significant (Token.ofText source) ∧
      ∀ t ∈ ((Parser.ofSource calls source).session requests).cursor.passed,
        t.kind.isValid = true := by
  constructor
  · cases hparse : parse calls source with
    | ok p =>
      rw [errors_of_parse hparse] at h
      cases h
    | error e =>
      rw [← Token.errors_significant] at h
      obtain ⟨t, ht, hinvalid, hstart⟩ := Token.exists_invalid h
      have hanswer : ((Parser.ofSource calls source).answer .program).1 = some e :=
        congrArg refusal? hparse
      obtain ⟨hcross, hrefused⟩ := Parser.refuses_answer hanswer
      obtain ⟨htokens, hpassed⟩ := hcross.of_start
      have hahead : t ∈ _ := Cursor.mem_ahead_of_invalid (htokens ▸ ht) hpassed hinvalid
      have hsorted : Sorted _ := htokens ▸ Token.sorted_significant source
      have hcategory := hrefused.category_ne_unterminated (List.ne_nil_of_mem hahead)
      have hle := hrefused.start_le hsorted hahead
      exact ⟨e, rfl, hcategory, hstart ▸ hle⟩
  · intro requests
    have hcross := ((Parser.ofSource calls source).crosses_session requests).2
    exact hcross.of_start

/-- A character that begins no word, after a comma that would be refused as well. -/
theorem refused_of_lexicalError_tilde :
    (Token.errors (Token.ofText "f(1, ~) , 'a")).head? = some ⟨.unexpectedCharacter '~', 5⟩ ∧
    (∃ e, parse .default "f(1, ~) , 'a" = .error e ∧ e.category ≠ .unterminatedConstruct ∧
      e.span.start ≤ 5) ∧
    ∀ requests : List Request,
      ((Parser.ofSource .default "f(1, ~) , 'a").session requests).cursor.tokens
        = Token.significant (Token.ofText "f(1, ~) , 'a") ∧
      ∀ t ∈ ((Parser.ofSource .default "f(1, ~) , 'a").session requests).cursor.passed,
        t.kind.isValid = true := by
  have hfirst : (Token.errors (Token.ofText "f(1, ~) , 'a")).head?
      = some ⟨.unexpectedCharacter '~', 5⟩ := by decide
  exact ⟨hfirst, refused_of_lexicalError .default hfirst⟩

end CallGrammar
