import CallGrammar.Proofs.Adjacent
import CallGrammar.Proofs.StatementCalls
import Mathlib.Order.MinMax

/-!
# CallGrammar.Proofs.Spacing

Where the words of a source stand does not matter, but for one thing: whether an opening
bracket touches the word before it.

To compare the trees and errors of two sources, both are read off a third vector, in
which places are runs of token indices.  The grammar only joins places, and a run is
taken to the bytes it covers by a map that respects joins, so a source is read as the
vector is (`Lockstep`), and every node covers in either source the tokens of one run.
-/

namespace CallGrammar

/-! ## runs of tokens -/

/-- A run of tokens in a vector of `n`, from the first to the last by their indices; the
end of the input has the index `n`. -/
structure Run (n : Nat) where
  first : Nat
  last : Nat
  ordered : first ≤ last
  inside : last ≤ n

namespace Run

variable {n : Nat}

instance : Location (Run n) where
  merge a b :=
    { first := min a.first b.first
      last := max a.last b.last
      ordered := Nat.le_trans (Nat.min_le_left _ _) (Nat.le_trans a.ordered (Nat.le_max_left _ _))
      inside := Nat.max_le.2 ⟨a.inside, b.inside⟩ }

/-- One token, or the end of the input. -/
def single (i : Nat) (h : i ≤ n) : Run n := ⟨i, i, Nat.le_refl i, h⟩

end Run

/-- The place of the token with the index in a source of the given size; after the last
token, the end of the source. -/
def Token.placeAt (ts : List (Token Span)) (size i : Nat) : Span :=
  (ts[i]?.map (·.span)).getD ⟨size, size⟩

/-- The bytes of a source that a run of its tokens covers. -/
def Run.bytes {n : Nat} (source : String) (r : Run n) : Span :=
  ⟨(Token.placeAt (Token.significant (Token.ofText source)) source.utf8ByteSize r.first).start,
    (Token.placeAt (Token.significant (Token.ofText source)) source.utf8ByteSize r.last).stop⟩

/-- Further tokens start and end further on. -/
theorem Token.placeAt_mono {ts : List (Token Span)} {size : Nat} (hsorted : Sorted ts)
    (hsize : ∀ t ∈ ts, t.span.stop ≤ size) :
    Monotone (fun i => (placeAt ts size i).start) ∧
      Monotone (fun i => (placeAt ts size i).stop) := by
  have hstep : ∀ i j, i < j → (placeAt ts size i).start ≤ (placeAt ts size j).start ∧
      (placeAt ts size i).stop ≤ (placeAt ts size j).stop := by
    intro i j hij
    unfold placeAt
    by_cases hi : i < ts.length
    · have hti := hsorted.nonempty _ (List.getElem_mem hi)
      have hle := hsize _ (List.getElem_mem hi)
      by_cases hj : j < ts.length
      · have htj := hsorted.nonempty _ (List.getElem_mem hj)
        have hord := List.pairwise_iff_getElem.1 hsorted.ordered i j hi hj hij
        simp only [List.getElem?_eq_getElem hi, List.getElem?_eq_getElem hj, Option.map_some,
          Option.getD_some]
        omega
      · simp only [List.getElem?_eq_getElem hi, List.getElem?_eq_none (Nat.le_of_not_lt hj),
          Option.map_some, Option.map_none, Option.getD_some, Option.getD_none]
        omega
    · have hj : ts.length ≤ j := Nat.le_trans (Nat.le_of_not_lt hi) (Nat.le_of_lt hij)
      simp [List.getElem?_eq_none (Nat.le_of_not_lt hi), List.getElem?_eq_none hj]
  constructor
  all_goals
    intro i j hij
    obtain rfl | hij := Nat.eq_or_lt_of_le hij
    · exact Nat.le_refl _
  · exact (hstep i j hij).1
  · exact (hstep i j hij).2

namespace Run

variable {n : Nat} {source : String}

/-- The bytes from one run to another are those of the tokens from the one to the other. -/
theorem bytes_merge (a b : Run n) :
    (Location.merge a b).bytes source = Location.merge (a.bytes source) (b.bytes source) := by
  obtain ⟨hstart, hstop⟩ := Token.placeAt_mono (Token.sorted_significant source)
    fun _ => Token.stop_le_of_mem_significant
  exact congrArg₂ Span.mk hstart.map_min hstop.map_max

/-- One token index stands for the place of that token, or for the end of the text. -/
theorem bytes_single {i : Nat} (h : i ≤ n) :
    (single i h).bytes source
      = Token.placeAt (Token.significant (Token.ofText source)) source.utf8ByteSize i := rfl

end Run

/-! ## vectors of the same words -/

/-- What a reading sees of a token besides its place. -/
def Token.word {σ : Type} (t : Token σ) : Kind × Bool :=
  (t.kind, t.kind == .symbol .openBracket && t.touching)

/-- Two vectors have the same kinds, and their opening brackets are adjacent to the
tokens before them alike. -/
structure SameWords (ts us : List (Token Span)) : Prop where
  kinds : ts.map (·.kind) = us.map (·.kind)
  brackets : ∀ i t, ts[i]? = some t → t.kind = .symbol .openBracket →
    (Token.Adjacent ts i ↔ Token.Adjacent us i)

namespace Token

variable {source other : String}

/-- What a reading sees of two tokens is the same if they are brackets that are adjacent
alike, or no brackets. -/
theorem word_eq_iff {i : Nat} {t u : Token Span} (hkind : t.kind = u.kind)
    (ht : (significant (ofText source))[i]? = some t)
    (hu : (significant (ofText other))[i]? = some u) :
    t.word = u.word ↔ (t.kind = .symbol .openBracket →
      (Adjacent (significant (ofText source)) i ↔ Adjacent (significant (ofText other)) i)) := by
  rw [← touching_iff_adjacent ht, ← touching_iff_adjacent hu, ← Bool.eq_iff_iff]
  by_cases hk : t.kind = .symbol .openBracket
  · have hk' : u.kind = .symbol .openBracket := by rw [← hkind, hk]
    simp [word, hk, hk']
  · have hfalse : (u.kind == .symbol .openBracket) = false := by simpa [← hkind] using hk
    simp [word, hkind, hfalse, hkind ▸ hk]

/-- A reading sees the same of two sources exactly if they have the same words. -/
theorem sameWords_iff : SameWords (significant (ofText source)) (significant (ofText other)) ↔
    (significant (ofText source)).map word = (significant (ofText other)).map word := by
  have hfst (ts : List (Token Span)) : (ts.map word).map Prod.fst = ts.map (·.kind) := by
    rw [List.map_map]
    rfl
  constructor
  · rintro ⟨hkinds, hbrackets⟩
    refine List.ext_getElem? fun i => ?_
    have hi : (significant (ofText source))[i]?.map (·.kind)
        = (significant (ofText other))[i]?.map (·.kind) := by
      rw [← List.getElem?_map, ← List.getElem?_map, hkinds]
    rw [List.getElem?_map, List.getElem?_map]
    cases ht : (significant (ofText source))[i]? with
    | none =>
      cases hu : (significant (ofText other))[i]? with
      | none => rfl
      | some u => rw [ht, hu] at hi; cases hi
    | some t =>
      cases hu : (significant (ofText other))[i]? with
      | none => rw [ht, hu] at hi; cases hi
      | some u =>
        rw [ht, hu] at hi
        exact congrArg some ((word_eq_iff (Option.some.inj hi) ht hu).2 (hbrackets i t ht))
  · intro hwords
    refine ⟨by rw [← hfst, hwords, hfst], fun i t ht hk => ?_⟩
    have hi : (significant (ofText source))[i]?.map word
        = (significant (ofText other))[i]?.map word := by
      rw [← List.getElem?_map, ← List.getElem?_map, hwords]
    rw [ht] at hi
    obtain ⟨u, hu, hword⟩ := Option.map_eq_some_iff.1 hi.symm
    exact (word_eq_iff (congrArg Prod.fst hword).symm ht hu).1 hword.symm hk

/-- The tokens of a source, with their indices for places. -/
def numbered (ts : List (Token Span)) : List (Token (Run ts.length)) :=
  ts.mapFinIdx fun i t h => ⟨t.kind, .single i (Nat.le_of_lt h), t.touching⟩

/-- A source with the same words reads as the numbered tokens. -/
theorem alike_numbered {ts : List (Token Span)}
    (h : ts.map word = (significant (ofText source)).map word) :
    (Cursor.start (numbered ts)).Alike (Run.bytes source)
      (Cursor.start (significant (ofText source))) := by
  have hlength : ts.length = (significant (ofText source)).length := by
    simpa using congrArg List.length h
  refine ⟨.nil, List.forall₂_iff_get.2 ⟨by simpa [numbered, Cursor.start], ?_⟩⟩
  intro i hi hi'
  replace hi' : i < (significant (ofText source)).length := hi'
  replace hi : i < ts.length := by rwa [hlength]
  have hword : ts[i].word = (significant (ofText source))[i].word := by
    have hget := congrArg (·[i]?) h
    simpa [List.getElem?_eq_getElem hi, List.getElem?_eq_getElem hi'] using hget
  simp only [Cursor.start, numbered, List.get_eq_getElem, List.getElem_mapFinIdx]
  refine ⟨(congrArg Prod.fst hword).symm, ?_, fun (hk : ts[i].kind = _) => ?_⟩
  · rw [Run.bytes_single, placeAt, List.getElem?_eq_getElem hi']
    rfl
  · have hk' : (significant (ofText source))[i].kind = .symbol .openBracket :=
      (congrArg Prod.fst hword).symm.trans hk
    have htouching := congrArg Prod.snd hword
    simpa [word, hk, hk'] using htouching.symm

end Token

/-! ## readings of the same words -/

/-- The answer of a reading at the places that `f` gives. -/
def relocate {σ τ : Type} (f : σ → τ) :
    Except (ParseError σ) (Program σ) → Except (ParseError τ) (Program τ)
  | .ok p => .ok (p.map f)
  | .error e => .error (e.map f)

/-- The numbered tokens `ts` and a source with the same words. -/
def Lockstep.ofWords (calls : StatementCalls) (ts : List (Token Span)) (source : String)
    (hlength : (Token.significant (Token.ofText source)).length = ts.length) :
    Lockstep (Run ts.length) Span where
  move := Run.bytes source
  first := ⟨.single ts.length (Nat.le_refl _), calls⟩
  second := ⟨⟨source.utf8ByteSize, source.utf8ByteSize⟩, calls⟩
  merge := Run.bytes_merge
  finish := by
    rw [Run.bytes_single, Token.placeAt, List.getElem?_eq_none (Nat.le_of_eq hlength)]
    rfl
  calls _ h := h

/-- The parser before the first of the numbered tokens. -/
def Parser.ofWords (calls : StatementCalls) (ts : List (Token Span)) : Parser (Run ts.length) where
  context := ⟨.single ts.length (Nat.le_refl _), calls⟩
  cursor := .start (Token.numbered ts)

/-- A source is read as numbered tokens with its words, at the bytes of the runs. -/
theorem parse_eq_relocate (calls : StatementCalls) {ts : List (Token Span)} {source : String}
    (h : ts.map Token.word = (Token.significant (Token.ofText source)).map Token.word) :
    parse calls source = relocate (Run.bytes source) (Parser.ofWords calls ts).program.1 := by
  have hlength : (Token.significant (Token.ofText source)).length = ts.length := by
    simpa using (congrArg List.length h).symm
  have hresult := (Lockstep.ofWords calls ts source hlength).program_result
    (p := Parser.ofWords calls ts) (q := Parser.ofSource calls source) rfl rfl
    (Token.alike_numbered h)
  obtain ⟨v, hv, hparse⟩ | ⟨e, he, ⟨name, span, -, hname, hnot⟩ | hparse⟩ := hresult
  · rw [hv]
    exact hparse
  · exact absurd hname hnot
  · rw [he]
    exact hparse

/-- **Layout**: two sources with the same words are both accepted, with trees that differ
in their spans only, or both refused for the same; and every node, or the error, covers
in both the tokens with the same indices. -/
theorem parse_of_sameWords (calls : StatementCalls) {source other : String}
    (h : SameWords (Token.significant (Token.ofText source))
      (Token.significant (Token.ofText other))) :
    (∃ p q : Program Span, parse calls source = .ok p ∧ parse calls other = .ok q ∧
      p.shape = q.shape ∧
      ∃ r : Program (Run (Token.significant (Token.ofText source)).length),
        p = r.map (Run.bytes source) ∧ q = r.map (Run.bytes other)) ∨
    ∃ d e : ParseError Span, parse calls source = .error d ∧ parse calls other = .error e ∧
      d.category = e.category ∧ d.message = e.message ∧
      ∃ r : Run (Token.significant (Token.ofText source)).length,
        d.span = r.bytes source ∧ e.span = r.bytes other := by
  have hsource := parse_eq_relocate calls
    (rfl : (Token.significant (Token.ofText source)).map Token.word = _)
  have hother := parse_eq_relocate calls (Token.sameWords_iff.1 h)
  cases hread : (Parser.ofWords calls (Token.significant (Token.ofText source))).program.1 with
  | ok r =>
    rw [hread] at hsource hother
    refine .inl ⟨_, _, hsource, hother, ?_, r, rfl, rfl⟩
    rw [Program.shape_map, Program.shape_map]
  | error e =>
    rw [hread] at hsource hother
    refine .inr ⟨_, _, hsource, hother, ?_, ?_, e.span, ?_, ?_⟩
    · rw [ParseError.category_map, ParseError.category_map]
    · rw [ParseError.message_map, ParseError.message_map]
    · exact ParseError.span_map _ e
    · exact ParseError.span_map _ e

/-- Spaces and a comment do not matter before an access that touches its target. -/
theorem parse_of_sameWords_access :
    SameWords (Token.significant (Token.ofText "f($x[1], 2)"))
      (Token.significant (Token.ofText " f ( $x[ 1 ],2\t) # done")) ∧
    ((∃ p q : Program Span, parse .default "f($x[1], 2)" = .ok p ∧
      parse .default " f ( $x[ 1 ],2\t) # done" = .ok q ∧ p.shape = q.shape ∧
      ∃ r : Program (Run (Token.significant (Token.ofText "f($x[1], 2)")).length),
        p = r.map (Run.bytes "f($x[1], 2)") ∧
        q = r.map (Run.bytes " f ( $x[ 1 ],2\t) # done")) ∨
    ∃ d e : ParseError Span, parse .default "f($x[1], 2)" = .error d ∧
      parse .default " f ( $x[ 1 ],2\t) # done" = .error e ∧
      d.category = e.category ∧ d.message = e.message ∧
      ∃ r : Run (Token.significant (Token.ofText "f($x[1], 2)")).length,
        d.span = r.bytes "f($x[1], 2)" ∧ e.span = r.bytes " f ( $x[ 1 ],2\t) # done") := by
  have h : SameWords (Token.significant (Token.ofText "f($x[1], 2)"))
      (Token.significant (Token.ofText " f ( $x[ 1 ],2\t) # done")) :=
    Token.sameWords_iff.2 (by decide)
  exact ⟨h, parse_of_sameWords .default h⟩

end CallGrammar
