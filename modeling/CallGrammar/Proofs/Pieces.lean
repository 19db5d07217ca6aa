import CallGrammar.Proofs.Spelling

/-!
# CallGrammar.Proofs.Pieces

Texts written piece by piece, and the tokens they are read as.  A piece is a word or a
space; `mayPrecede` says which piece may stand right before which.  A text of lone
words that keeps to it is read as its words, one token each.
-/

namespace CallGrammar

/-- What a text is written with. -/
inductive Piece where
  | word (kind : Kind)
  | space
  deriving DecidableEq

/-- A longer symbol, or a comment, may begin with the symbol. -/
def Symbol.goesOn : Symbol → Bool
  | assign | less | greater | bang | slash | pipe => true
  | _ => false

/-- The symbols that may stand right after any word. -/
def Symbol.endsWord : Symbol → Bool
  | openParen | closeParen | closeBracket | closeBrace | comma | semicolon | pipe => true
  | _ => false

/-- Whether the first word ends where the second one touches it. -/
def Kind.mayPrecede : Kind → Kind → Bool
  | symbol _, symbol .openParen | symbol _, var _ => true
  | symbol s, _ => !s.goesOn
  | _, symbol s => s.endsWord
  | _, _ => false

namespace Piece

def chars : Piece → List Char
  | word k => k.spelling
  | space => [' ']

/-- The token that the piece is, if it is one. -/
def found : Piece → Option Kind
  | word k => some k
  | space => none

def Lone : Piece → Prop
  | word k => k.Lone
  | space => True

def text (ps : List Piece) : String := String.ofList (ps.flatMap chars)

/-- Whether the first piece ends where the second one begins. -/
def mayPrecede : Piece → Piece → Bool
  | space, space => false
  | word k, word k' => k.mayPrecede k'
  | _, _ => true

end Piece

/-! ## lone words -/

/-- The list of symbols has all of them. -/
theorem Symbol.mem_all (s : Symbol) : s ∈ all := by
  cases s <;> decide

/-- The list of keywords has all of them. -/
theorem Keyword.mem_all (word : Keyword) : word ∈ all := by
  cases word <;> decide

namespace Token

/-- The text of a symbol is a piece of it. -/
theorem isPiece_symbol (s : Symbol) : isPiece s.text.toList (some (.symbol s)) = true := by
  have hall : Symbol.all.all (fun s => isPiece s.text.toList (some (.symbol s))) = true := by
    decide
  exact List.all_eq_true.1 hall s s.mem_all

/-- The text of a keyword is a piece of it. -/
theorem isPiece_keyword (word : Keyword) :
    isPiece word.text.toList (some (.keyword word)) = true := by
  have hall : Keyword.all.all (fun word =>
      isPiece word.text.toList (some (.keyword word))) = true := by
    decide
  exact List.all_eq_true.1 hall word word.mem_all

end Token

namespace Kind

/-- The spelling of such a kind is a piece of it. -/
theorem Lone.isPiece {k : Kind} (h : k.Lone) : Token.isPiece k.spelling (some k) = true := by
  cases k with
  | keyword word => exact Token.isPiece_keyword word
  | symbol s => exact Token.isPiece_symbol s
  | singleQuoted s => exact Token.isPiece_single s
  | integer | float | name | reference | var =>
    exact (Token.isPiece_of_lexesAlone h.1 h.2).1
  | _ => cases h.1

theorem Lone.canBeTouched {k : Kind} (h : k.Lone) : k.canBeTouched = true := by
  cases k with
  | lineComment | blockComment | newline => cases h.1
  | _ => rfl

/-- A lone word begins with a visible character. -/
theorem Lone.spelling_eq_cons {k : Kind} (h : k.Lone) :
    ∃ d ds, k.spelling = d :: ds ∧ d ∈ asciiChars ∧ Rule.isBlank d = false := by
  cases k with
  | keyword word => cases word <;> exact ⟨_, _, rfl, by decide⟩
  | symbol s => cases s <;> exact ⟨_, _, rfl, by decide⟩
  | singleQuoted s => exact ⟨'\'', _, rfl, by decide⟩
  | integer | float | name | reference | var =>
    obtain ⟨-, d, ds, hspelling, hstart⟩ := Token.isPiece_of_lexesAlone h.1 h.2
    exact ⟨d, ds, hspelling, mem_asciiChars_of_isAtomStart hstart,
      not_isBlank_of_isAtomStart hstart⟩
  | _ => cases h.1

end Kind

namespace Rule

theorem isOver_symbol {s : Symbol} (h : s.goesOn = false) : isOver s.text.toList = true := by
  have hall : Symbol.all.all (fun s => s.goesOn || isOver s.text.toList) = true := by
    decide
  simpa [h] using List.all_eq_true.1 hall s s.mem_all

/-- A symbol stops before a space, a parenthesis and a variable. -/
theorem stops_symbol {s : Symbol} {d : Char} (hd : d ∈ [' ', '(', '$']) :
    stops s.text.toList d = true := by
  have hall : Symbol.all.all (fun s => [' ', '(', '$'].all (stops s.text.toList)) = true := by
    decide
  exact List.all_eq_true.1 (List.all_eq_true.1 hall s s.mem_all) d hd

/-- A keyword stops before every delimiter. -/
theorem stops_keyword {word : Keyword} {d : Char} (hd : d ∈ delimiters) :
    stops word.text.toList d = true := by
  have hall : Keyword.all.all (fun word => delimiters.all (stops word.text.toList)) = true := by
    decide
  exact List.all_eq_true.1 (List.all_eq_true.1 hall word word.mem_all) d hd

/-- A space stops before anything that is not blank. -/
theorem stops_space {d : Char} (hd : d ∈ asciiChars) (hblank : isBlank d = false) :
    stops [' '] d = true := by
  have hall : asciiChars.all (fun d => isBlank d || stops [' '] d) = true := by decide
  simpa [hblank] using List.all_eq_true.1 hall d hd

/-- The rules that do not begin like an atom have no part in reading one; the others
have no delimiter in them. -/
theorem stops_atom {c d : Char} {cs : List Char} (hc : isAtomStart c = true)
    (hd : d ∈ delimiters) : stops (c :: cs) d = true := by
  have hall : table.all (fun r =>
      delimiters.all (fun d => !r.pattern.mentions d && r.notBefore != some d) ||
        asciiChars.all (fun c => !isAtomStart c || !r.pattern.opensWith c)) = true := by
    decide
  apply List.all_eq_true.2
  intro r hr
  obtain hmentions | hopens := Bool.or_eq_true_iff.1 (List.all_eq_true.1 hall r hr)
  · have hd := List.all_eq_true.1 hmentions d hd
    simp only [Bool.and_eq_true, Bool.not_eq_true'] at hd
    have hopens := Pattern.opensWith_of_mentions (Pattern.mentions_derivatives (c :: cs) hd.1)
    simp [hopens, hd.2]
  · have hc' := List.all_eq_true.1 hopens c (mem_asciiChars_of_isAtomStart hc)
    have hnever : r.pattern.derivative c = .never :=
      Pattern.derivative_eq_never (by simpa [hc] using hc')
    have hderivatives : r.pattern.derivatives (c :: cs) = .never := by
      rw [Pattern.derivatives, List.foldl_cons, hnever]
      exact Pattern.derivatives_never cs
    simp [hderivatives, Pattern.opensWith, Pattern.nullable]

end Rule

/-- A lone word other than a symbol ends before a delimiter. -/
theorem Kind.Lone.stops {k : Kind} (h : k.Lone) (hsymbol : ∀ s, k ≠ .symbol s) {d : Char}
    (hd : d ∈ delimiters) : Rule.stops k.spelling d = true := by
  cases k with
  | keyword word => exact Rule.stops_keyword hd
  | symbol s => exact absurd rfl (hsymbol s)
  | singleQuoted s => exact Rule.stops_of_isOver (Rule.isOver_single s) d
  | integer | float | name | reference | var =>
    obtain ⟨-, c, cs, hspelling, hc⟩ := Token.isPiece_of_lexesAlone h.1 h.2
    rw [hspelling]
    exact Rule.stops_atom hc hd
  | _ => cases h.1

theorem Kind.Lone.stops_blank {k : Kind} (h : k.Lone) : Rule.stops k.spelling ' ' = true := by
  by_cases hk : ∃ s, k = .symbol s
  · obtain ⟨s, rfl⟩ := hk
    exact Rule.stops_symbol (by decide)
  · exact h.stops (fun s hs => hk ⟨s, hs⟩) (by decide)

/-- Where a word may precede another, it is read to its end and no further. -/
theorem Kind.Lone.stops_of_mayPrecede {k k' : Kind} (hk : k.Lone) (h : k.mayPrecede k' = true)
    {d : Char} {ds : List Char} (hd : k'.spelling = d :: ds) :
    Rule.stops k.spelling d = true := by
  unfold Kind.mayPrecede at h
  split at h
  · obtain ⟨rfl, -⟩ := List.cons.inj hd
    exact Rule.stops_symbol (by decide)
  · obtain ⟨rfl, -⟩ := List.cons.inj hd
    exact Rule.stops_symbol (by decide)
  · exact Rule.stops_of_isOver (Rule.isOver_symbol (by simpa using h)) d
  · next s _ hsymbol =>
    have hmem : d ∈ delimiters := by
      cases s <;> first
        | exact absurd h Bool.false_ne_true
        | obtain ⟨rfl, -⟩ := List.cons.inj hd
          decide
    exact hk.stops hsymbol hmem
  · cases h

/-! ## pieces one after the other -/

namespace Piece

theorem Lone.isPiece {p : Piece} (h : p.Lone) : Token.isPiece p.chars p.found = true := by
  cases p with
  | word k => exact Kind.Lone.isPiece h
  | space => decide

theorem Lone.chars_eq_cons {p : Piece} (h : p.Lone) : ∃ d ds, p.chars = d :: ds := by
  cases p with
  | word k =>
    obtain ⟨d, ds, hspelling, -⟩ := Kind.Lone.spelling_eq_cons h
    exact ⟨d, ds, hspelling⟩
  | space => exact ⟨' ', [], rfl⟩

/-- Where a piece may precede another, it is read to its end and no further. -/
theorem stops_of_mayPrecede {p q : Piece} (hp : p.Lone) (hq : q.Lone)
    (h : p.mayPrecede q = true) {d : Char} {ds : List Char} (hd : q.chars = d :: ds) :
    Rule.stops p.chars d = true := by
  cases p with
  | space =>
    cases q with
    | space => cases h
    | word k =>
      obtain ⟨d', ds', hspelling, hascii, hblank⟩ := Kind.Lone.spelling_eq_cons hq
      obtain ⟨rfl, -⟩ := List.cons.inj (hspelling.symm.trans hd)
      exact Rule.stops_space hascii hblank
  | word k =>
    cases q with
    | space =>
      obtain ⟨rfl, -⟩ := List.cons.inj hd
      exact Kind.Lone.stops_blank hp
    | word k' => exact Kind.Lone.stops_of_mayPrecede hp h hd

/-! ## the tokens of a text -/

/-- The tokens of the words, where `touching` says whether the first one touches a token
before it. -/
def tokens (touching : Bool) : List Piece → List (Token Unit)
  | [] => []
  | space :: ps => tokens false ps
  | word k :: ps => ⟨k, (), touching⟩ :: tokens true ps

/-- The pieces are lone, and each may precede the next one, the last one `next`. -/
def Spaced : List Piece → Option Piece → Prop
  | [], _ => True
  | p :: ps, next => p.Lone ∧ (∀ q, ps.head?.or next = some q → p.mayPrecede q = true) ∧
    Spaced ps next

theorem Spaced.lone {ps : List Piece} {next : Option Piece} (h : Spaced ps next) :
    ∀ p ∈ ps, p.Lone := by
  induction ps with
  | nil => exact fun p hp => absurd hp List.not_mem_nil
  | cons q ps ih =>
    intro p hp
    obtain rfl | hp := List.mem_cons.1 hp
    · exact h.1
    · exact ih h.2.2 p hp

/-- The first of spaced pieces is what the tokenizer takes. -/
theorem Spaced.firstPiece {p : Piece} {ps : List Piece} {c : Char} {cs : List Char}
    (h : Spaced (p :: ps) none) (hp : p.chars = c :: cs) :
    Token.firstPiece c (cs ++ ps.flatMap chars) = (p.found, cs.length + 1) := by
  have hpiece := Lone.isPiece h.1
  rw [hp, Token.isPiece_cons] at hpiece
  cases ps with
  | nil => rw [List.flatMap_nil, List.append_nil, hpiece]
  | cons q qs =>
    have hq := Spaced.lone h q (List.mem_cons_of_mem p List.mem_cons_self)
    obtain ⟨d, ds, hd⟩ := Lone.chars_eq_cons hq
    have hstops := stops_of_mayPrecede h.1 hq (h.2.1 q rfl) hd
    rw [hp] at hstops
    rw [List.flatMap_cons, hd, List.cons_append, Token.firstPiece_append hstops, hpiece]

/-- Spaced pieces are tokenized to their tokens. -/
theorem scan_flatMap_chars {ps : List Piece} (h : Spaced ps none) (offset : Nat)
    (touchable : Bool) :
    (Token.scan 0 offset touchable (ps.flatMap chars)).map (Token.map fun _ => ())
      = tokens touchable ps := by
  induction ps generalizing offset touchable with
  | nil => rfl
  | cons p ps ih =>
    obtain ⟨c, cs, hp⟩ := Lone.chars_eq_cons h.1
    have hpiece := h.firstPiece hp
    rw [List.flatMap_cons, hp, List.cons_append, Token.scan, hpiece]
    cases p with
    | space =>
      show (Token.scan (cs.length + 1 - 1) _ false (cs ++ _)).map _ = tokens false ps
      rw [Nat.add_sub_cancel, Token.scan_append]
      exact ih h.2.2 _ _
    | word k =>
      show _ :: (Token.scan (cs.length + 1 - 1) _ k.canBeTouched (cs ++ _)).map _
        = _ :: tokens true ps
      rw [Nat.add_sub_cancel, Token.scan_append, Kind.Lone.canBeTouched h.1]
      exact congrArg _ (ih h.2.2 _ _)

theorem isComment_of_mem_tokens {ps : List Piece} (h : ∀ p ∈ ps, p.Lone) (touching : Bool) :
    ∀ t ∈ tokens touching ps, t.kind.isComment = false := by
  induction ps generalizing touching with
  | nil => exact fun t ht => absurd ht List.not_mem_nil
  | cons p ps ih =>
    have hps : ∀ p ∈ ps, p.Lone := fun q hq => h q (List.mem_cons_of_mem p hq)
    cases p with
    | space => exact ih hps false
    | word k =>
      intro t ht
      obtain rfl | ht := List.mem_cons.1 ht
      · have htouch := Kind.Lone.canBeTouched (h _ List.mem_cons_self)
        cases k <;> first | rfl | cases htouch
      · exact ih hps true t ht

/-- **Lexing**: the tokens of a spaced text are its words. -/
theorem significant_ofText {ps : List Piece} (h : Spaced ps none) :
    (Token.significant (Token.ofText (text ps))).map (Token.map fun _ => ())
      = tokens false ps := by
  have hscan := scan_flatMap_chars h 0 false
  have hmap : ∀ ts : List (Token Span), (Token.significant ts).map (Token.map fun _ => ())
      = Token.significant (ts.map (Token.map fun _ => ())) := by
    intro ts
    rw [Token.significant, Token.significant, List.filter_map]
    rfl
  rw [hmap, Token.ofText, text, String.toList_ofList, hscan]
  apply List.filter_eq_self.2
  intro t ht
  simp [isComment_of_mem_tokens h.lone false t ht]

end Piece

end CallGrammar
