import CallGrammar.Proofs.Forms
import CallGrammar.Proofs.Nodes
import CallGrammar.Proofs.Reserved

/-!
# CallGrammar.Proofs.Atoms

The atoms of dumps.  An atom is a word without blanks, parentheses and quotes, or a string
between quotes.  Nothing is escaped in a string: it is told from what follows only if none of
its own quotes stands before a character that may follow an atom (`Unclosing`).

What value a word stands for is told by the table of tokens: a word that was read from a
source is read as the same word on its own, unless it is a keyword.
-/

namespace CallGrammar

/-! ## words and strings -/

/-- Visible characters, none of them a parenthesis or a quote. -/
def IsWord (cs : List Char) : Prop :=
  cs ≠ [] ∧ ∀ c ∈ cs, Text.isBlank c = false ∧ c ∉ ['(', ')', '\'']

instance (cs : List Char) : Decidable (IsWord cs) :=
  @instDecidableAnd _ _ inferInstance (List.decidableBAll _ cs)

/-- No quote in the value stands right before a character that may follow an atom. -/
def Unclosing (value : List Char) : Prop := ∀ c ∈ [' ', '\n', ')'], ¬ ['\'', c] <:+: value

instance (value : List Char) : Decidable (Unclosing value) :=
  List.decidableBAll (fun c => ¬ ['\'', c] <:+: value) [' ', '\n', ')']

/-- A word, or a string between quotes. -/
inductive IsAtom : List Char → Prop where
  | word {cs : List Char} (h : IsWord cs) : IsAtom cs
  | string {value : List Char} (h : Unclosing value) : IsAtom ('\'' :: (value ++ ['\'']))

theorem IsWord.isBare {cs : List Char} (h : IsWord cs) : IsBare cs := by
  refine ⟨h.1, fun c hc => ?_⟩
  obtain ⟨hblank, hmem⟩ := h.2 c hc
  simp only [List.mem_cons, not_or] at hmem
  exact ⟨hblank, hmem.1, hmem.2.1⟩

/-- A string goes on to the quote before which an atom may end. -/
theorem Unclosing.eq_nil_of_append {value w rest rest' : List Char} (h : Unclosing (value ++ w))
    (hends : EndsAtom rest) (heq : '\'' :: rest = w ++ '\'' :: rest') : w = [] := by
  cases w with
  | nil => rfl
  | cons d w =>
    obtain ⟨rfl, hrest⟩ := List.cons.inj heq
    cases w with
    | nil =>
      have hquote := hends '\'' (by rw [hrest]; rfl)
      exact absurd hquote (by decide)
    | cons e w =>
      have he : e ∈ [' ', '\n', ')'] := by simpa using hends e (by rw [hrest]; rfl)
      exact absurd ⟨value, w, by simp⟩ (h e he)

/-- Atoms are told from what follows them. -/
theorem atoms : Atoms IsAtom where
  ne_nil := by
    rintro ⟨h, -⟩
    exact h rfl
  front := by
    rintro c cs (h | _)
    · exact bareAtoms.front h.isBare
    · decide
  back := by
    intro cs c h
    generalize heq : cs ++ [c] = ds at h
    cases h with
    | word h =>
      subst heq
      exact bareAtoms.back h.isBare
    | @string value h =>
      rw [← List.cons_append] at heq
      obtain rfl : c = '\'' := by simpa using (List.append_inj' heq rfl).2
      decide
  apart := by
    intro a a' rest rest' h h' hends hends' heq
    have hquote {cs : List Char} (hword : IsWord cs) {value ds ds' : List Char}
        (heq : cs ++ ds = '\'' :: value ++ ds') : False := by
      obtain ⟨hne, hall⟩ := hword
      obtain ⟨c, cs, rfl⟩ := List.exists_cons_of_ne_nil hne
      obtain rfl : c = '\'' := (List.cons.inj heq).1
      exact absurd (hall _ List.mem_cons_self).2 (by decide)
    cases h with
    | word h =>
      cases h' with
      | word h' => exact bareAtoms.apart h.isBare h'.isBare hends hends' heq
      | string h' => exact (hquote h heq).elim
    | @string value h =>
      cases h' with
      | word h' => exact (hquote h' heq.symm).elim
      | @string value' h' =>
        have heq : value ++ '\'' :: rest = value' ++ '\'' :: rest' := by simpa using heq
        obtain ⟨w, rfl, hrest⟩ | ⟨w, rfl, hrest⟩ := List.append_eq_append_iff.1 heq
        · rw [h'.eq_nil_of_append hends hrest, List.append_nil]
        · rw [h.eq_nil_of_append hends' hrest, List.append_nil]

/-! ## words on their own -/

namespace Rule

variable {rules : List Rule} {r : Rule} {w back : List Char}

/-- A rule that matches all of a word matches it on its own, unless it asks for what comes
behind. -/
theorem reach_of_mem (hw : w ∈ r.pattern.language) (hbefore : r.notBefore = none) :
    r.reach w = some w.length := by
  have hlongest : r.pattern.longest w = some w.length :=
    Pattern.longest_eq_length (Pattern.mem_language.1 hw)
  rw [reach, hlongest, hbefore]
  rfl

/-- What a rule takes is of its pattern. -/
theorem mem_of_reach {cs : List Char} (h : r.reach (w ++ cs) = some w.length) :
    w ∈ r.pattern.language := by
  have hmem := Pattern.take_mem_language (longest_of_reach h)
  rwa [List.take_left' rfl] at hmem

/-- The best rule for a word is the best one for the word on its own. -/
theorem best_of_append (hbest : best rules (w ++ back) = some (r, w.length))
    (hbefore : ∀ r' ∈ rules, w ∈ r'.pattern.language → r'.notBefore = none) :
    best rules w = some (r, w.length) := by
  induction rules with
  | nil => cases hbest
  | cons r' rs ih =>
    obtain ⟨hnone, hbefore⟩ := List.forall_mem_cons.1 hbefore
    by_cases hw : w ∈ r'.pattern.language
    · -- the rule goes as far before other text, so it is the best one there
      obtain ⟨n, hn, hle⟩ := Pattern.exists_longest (List.prefix_append w back) hw
      have hreach : r'.reach (w ++ back) = some n := by simp [reach, hn, hnone hw]
      have hr : r' = r := by
        unfold best at hbest
        rw [hreach] at hbest
        split at hbest
        · next heq => cases heq
        · cases hbest
          rfl
        · next heq _ =>
          cases heq
          split at hbest
          · cases hbest
            omega
          · cases hbest
            rfl
      rw [← hr]
      exact best_of_whole (reach_of_mem hw (hnone hw)) rs
    · have hrest : best rs (w ++ back) = some (r, w.length) := by
        unfold best at hbest
        split at hbest
        · exact hbest
        · next hreach _ =>
          cases hbest
          exact absurd (mem_of_reach hreach) hw
        · next hreach hfound =>
          split at hbest
          · cases hbest
            exact hfound
          · cases hbest
            exact absurd (mem_of_reach hreach) hw
      rw [best, ih hrest hbefore]
      cases hreach : r'.reach w with
      | none => rfl
      | some n =>
        have hle : n ≤ w.length := Pattern.longest_le (longest_of_reach hreach)
        have hne : n ≠ w.length := by
          rintro rfl
          have hwhole : r'.reach (w ++ []) = some w.length := by rwa [List.append_nil]
          exact hw (mem_of_reach hwhole)
        exact if_pos (Nat.lt_of_le_of_ne hle hne)

end Rule

namespace Token

variable {kind : Kind} {piece back : List Char}

/-- An atom that is no keyword is the same token on its own. -/
theorem Leads.alone (h : Leads (some kind) piece back) (hatom : kind.isAtom = true)
    (hkeyword : ∀ word : Keyword, piece ≠ word.text.toList) : Leads (some kind) piece [] := by
  obtain ⟨r, -, hbest, -, hread⟩ := h.exists_read (by rintro c rfl; cases hatom)
  have hbefore : ∀ r' ∈ Rule.table, piece ∈ r'.pattern.language → r'.notBefore = none := by
    intro r' hr' hpiece
    simp only [Rule.table, Rule.words, List.mem_append, List.mem_map] at hr'
    obtain ((⟨word, -, rfl⟩ | ⟨s, -, rfl⟩) | hclass) | hfault := hr'
    · exact absurd (Pattern.mem_language_text.1 hpiece) (hkeyword word)
    · rfl
    · have hall : ∀ r ∈ Rule.classes, r.notBefore = none := by simp [Rule.classes, Rule.texts]
      exact hall r' hclass
    · have hall : ∀ r ∈ Rule.faults, r.notBefore = none := by simp [Rule.faults]
      exact hall r' hfault
  have halone := Rule.best_of_append hbest hbefore
  rw [← hread]
  exact .of_best (by rw [List.append_nil]; exact halone)

end Token

/-! ## characters of words -/

/-- The characters of a text of the pattern are those it mentions. -/
theorem Pattern.mentions_of_mem {p : Pattern} {w : List Char} {c : Char} (hw : w ∈ p.language)
    (hc : c ∈ w) : p.mentions c = true := by
  by_contra hmentions
  obtain ⟨u, v, rfl⟩ := List.append_of_mem hc
  have hnever : (p.derivatives u).derivative c = .never :=
    derivative_eq_never (opensWith_of_mentions (mentions_derivatives u (by simpa using hmentions)))
  have hcons : p.derivatives (u ++ c :: v) = ((p.derivatives u).derivative c).derivatives v :=
    derivatives_append u (c :: v) p
  rw [mem_language, hcons, hnever, derivatives_never] at hw
  cases hw

/-- The characters that atoms of a source are made of. -/
def isAtomChar (c : Char) : Bool := isAtomStart c || ['_', '.', '+', '-'].contains c

theorem isAtomChar_of_isWordChar {c : Char} (h : Rule.isWordChar c = true) :
    isAtomChar c = true := by
  simp only [Rule.isWordChar, Bool.or_eq_true, beq_iff_eq] at h
  obtain h | rfl := h
  · simp [isAtomChar, isAtomStart, h]
  · decide

theorem isAtomChar_of_isHexDigit {c : Char} (h : Rule.isHexDigit c = true) :
    isAtomChar c = true := by
  have hascii : c ∈ asciiChars := by
    simp only [Rule.isHexDigit, Bool.or_eq_true, Bool.and_eq_true, decide_eq_true_eq] at h
    obtain (h | ⟨-, h⟩) | ⟨-, h⟩ := h
    · exact mem_asciiChars_of_isAtomStart (isAtomStart_of_isDigit h)
    · have hf : 'f'.toNat < 128 := by decide
      exact mem_asciiChars_of_le hf h
    · have hF : 'F'.toNat < 128 := by decide
      exact mem_asciiChars_of_le hF h
  have hall : asciiChars.all (fun d => !Rule.isHexDigit d || isAtomChar d) = true := by
    decide +kernel
  simpa [h] using List.all_eq_true.1 hall c hascii

/-- An atom mentions no other characters. -/
theorem Kind.mentions_eq_false {k : Kind} {c : Char} (hatom : k.isAtom = true)
    (hc : isAtomChar c = false) : k.pattern.mentions c = false := by
  have hstart : isAtomStart c = false := by
    rw [isAtomChar, Bool.or_eq_false_iff] at hc
    exact hc.1
  have hdigit : c.isDigit = false :=
    Bool.eq_false_iff.2 fun h => by simp [isAtomStart_of_isDigit h] at hstart
  have hlower : c.isLower = false :=
    Bool.eq_false_iff.2 fun h => by simp [isAtomStart_of_isLower h] at hstart
  have hupper : c.isUpper = false :=
    Bool.eq_false_iff.2 fun h => by simp [isAtomStart_of_isUpper h] at hstart
  have hhex : Rule.isHexDigit c = false :=
    Bool.eq_false_iff.2 fun h => by simp [isAtomChar_of_isHexDigit h] at hc
  have hword : Rule.isWordChar c = false :=
    Bool.eq_false_iff.2 fun h => by simp [isAtomChar_of_isWordChar h] at hc
  have hsign : ∀ d ∈ ['0', 'x', 'X', '.', 'e', 'E', '+', '-', ':', '$'], c ≠ d := by
    have hall : ['0', 'x', 'X', '.', 'e', 'E', '+', '-', ':', '$'].all isAtomChar = true := by
      decide
    rintro d hd rfl
    rw [List.all_eq_true.1 hall c hd] at hc
    cases hc
  simp only [List.forall_mem_cons] at hsign
  cases k with
  | integer | float | name | reference | var =>
    simp [pattern, Rule.digits, Rule.hexadecimal, Rule.decimalFraction, Rule.scaledInteger,
      Rule.exponent, Rule.qualified, Rule.capitalised, Rule.variableName, Pattern.plus,
      Pattern.sequence, Pattern.optional, Pattern.text, Pattern.char, Pattern.followedBy,
      Pattern.or, Pattern.mentions, hdigit, hlower, hupper, hhex, hword, hsign]
  | _ => cases hatom

/-- They are visible, and no parentheses and no quotes. -/
theorem visible_of_isAtomChar {c : Char} (h : isAtomChar c = true) :
    Text.isBlank c = false ∧ c ∉ ['(', ')', '\''] := by
  have hascii : c ∈ asciiChars := by
    simp only [isAtomChar, Bool.or_eq_true, List.contains_iff_mem] at h
    obtain h | h := h
    · exact mem_asciiChars_of_isAtomStart h
    · have hall : ['_', '.', '+', '-'].all asciiChars.contains = true := by decide
      exact List.contains_iff_mem.1 (List.all_eq_true.1 hall c h)
  have hall : asciiChars.all (fun d =>
      !(isAtomChar d && (Text.isBlank d || ['(', ')', '\''].contains d))) = true := by
    decide +kernel
  simpa [h] using List.all_eq_true.1 hall c hascii

/-! ## what atoms stand for -/

/-- The value that a token stands for, if it is one that dumps put down as it is. -/
def Kind.value? : Kind → Option (Expr Unit)
  | .name text => some (.word () text)
  | .reference text => some (.reference () text)
  | .var text => some (.var () text)
  | .integer text => some (.literal () (.integer text))
  | .float text => some (.literal () (.float text))
  | .keyword .trueWord => some (.literal () (.boolean true))
  | .keyword .falseWord => some (.literal () (.boolean false))
  | .keyword .undefWord => some (.literal () .undef)
  | .keyword word => some (.word () word.text)
  | _ => none

/-- The value of an atom: a string between quotes, or what a token with this text is. -/
def atomValue? : List Char → Option (Expr Unit)
  | [] => none
  | c :: cs =>
    if c = '\'' then some (.literal () (.string (String.ofList cs.dropLast)))
    else (Token.firstPiece c cs).1.bind Kind.value?

/-- A text in single quotes is read as the string between them. -/
theorem atomValue?_string (value : List Char) :
    atomValue? ('\'' :: (value ++ ['\'']))
      = some (.literal () (.string (String.ofList value))) := by
  simp [atomValue?]

/-- A word is read as the value of its keyword, if it has one. -/
theorem atomValue?_keyword (word : Keyword) :
    atomValue? word.text.toList = Kind.value? (.keyword word) := by
  have hpiece := Token.isPiece_keyword word
  cases htext : word.text.toList with
  | nil =>
    rw [htext] at hpiece
    cases hpiece
  | cons c cs =>
    rw [htext, Token.isPiece_cons] at hpiece
    have hquote : c ≠ '\'' := by
      rintro rfl
      cases word <;> cases htext
    rw [atomValue?, if_neg hquote, hpiece]
    rfl

namespace Token

variable {kind : Kind} {piece back : List Char}

/-- The text of an atom is of the pattern of its kind. -/
theorem Leads.mem_language (h : Leads (some kind) piece back) (hatom : kind.isAtom = true) :
    piece ∈ kind.pattern.language := by
  have hlongest := h.longest
  cases kind with
  | integer | float | name | reference | var => exact hlongest.1
  | _ => cases hatom

/-- An atom of a source is a word. -/
theorem Leads.isWord (h : Leads (some kind) piece back) (hatom : kind.isAtom = true) :
    IsWord piece := by
  refine ⟨h.ne_nil, fun c hc => visible_of_isAtomChar ?_⟩
  by_contra hnot
  have hmentions := Kind.mentions_eq_false hatom (by simpa using hnot)
  rw [Pattern.mentions_of_mem (h.mem_language hatom) hc] at hmentions
  cases hmentions

/-- An atom of a source that is no keyword stands for the value of its token. -/
theorem Leads.atomValue? (h : Leads (some kind) piece back) (hatom : kind.isAtom = true)
    (hkeyword : ∀ word : Keyword, piece ≠ word.text.toList) :
    CallGrammar.atomValue? piece = kind.value? := by
  have hword := h.isWord hatom
  obtain ⟨c, cs, rfl, hpiece⟩ := h.alone hatom hkeyword
  have hquote : c ≠ '\'' := by
    rintro rfl
    exact (hword.2 _ List.mem_cons_self).2 (by decide)
  rw [List.append_nil] at hpiece
  rw [CallGrammar.atomValue?, if_neg hquote, hpiece]
  rfl

/-- Only names have keywords for their text. -/
theorem Leads.ne_keyword (h : Leads (some kind) piece back) (hatom : kind.isAtom = true)
    (hname : kind.name? = none) (word : Keyword) : piece ≠ word.text.toList := by
  rintro rfl
  have hmem := h.mem_language hatom
  obtain ⟨-, hother⟩ := text_notMem_language word
  cases kind with
  | integer => exact hother (.integer "") (by simp) hmem
  | float => exact hother (.float "") (by simp) hmem
  | reference => exact hother (.reference "") (by simp) hmem
  | var => exact hother (.var "") (by simp) hmem
  | name => cases hname
  | _ => cases hatom

end Token

/-! ## words of trees -/

/-- The literal is put down so that it is told from what stands around it. -/
def Literal.Readable : Literal → Prop
  | integer s => IsWord s.toList ∧ atomValue? s.toList = some (.literal () (.integer s))
  | float s => IsWord s.toList ∧ atomValue? s.toList = some (.literal () (.float s))
  | string s => Unclosing s.toList
  | boolean _ | undef => True

def Word.Readable : Word → Prop
  | name s => IsWord s.toList
  | reference s => IsWord s.toList ∧ atomValue? s.toList = some (.reference () s)
  | var s => IsWord s.toList ∧ atomValue? ('$' :: s.toList) = some (.var () s)
  | literal value => value.Readable
  | operator _ => True

theorem IsWord.cons {c : Char} {cs : List Char} (h : IsWord cs)
    (hc : Text.isBlank c = false ∧ c ∉ ['(', ')', '\'']) : IsWord (c :: cs) :=
  ⟨List.cons_ne_nil c cs, List.forall_mem_cons.2 ⟨hc, h.2⟩⟩

section

variable {kind : Kind} {piece back : List Char}

/-- The words of a source are readable, but for strings. -/
theorem Word.readable_of_leads {word : Word} (h : Token.Leads (some kind) piece back)
    (hword : ofKind? kind = some word)
    (hstring : ∀ value, word = .literal (.string value) → Unclosing value.toList) :
    word.Readable := by
  have hatom (hatom : kind.isAtom = true) : IsWord kind.spelling := by
    rw [h.spelling hatom]
    exact h.isWord hatom
  have hvalue (hatom : kind.isAtom = true) (hname : kind.name? = none) :
      atomValue? kind.spelling = kind.value? := by
    rw [h.spelling hatom]
    exact h.atomValue? hatom (h.ne_keyword hatom hname)
  cases kind with
  | name text =>
    cases hword
    exact hatom rfl
  | integer text | float text | reference text =>
    cases hword
    exact ⟨hatom rfl, hvalue rfl rfl⟩
  | var name =>
    cases hword
    have hne : name.toList ≠ [] := by
      intro hnil
      have hmem := h.mem_language rfl
      rw [← h.spelling rfl, Kind.spelling, hnil] at hmem
      have hsign : ['$'] ∉ (Kind.var "").pattern.language := by decide
      exact hsign hmem
    exact ⟨⟨hne, (List.forall_mem_cons.1 (hatom rfl).2).2⟩, hvalue rfl rfl⟩
  | singleQuoted value | doubleQuoted value =>
    cases hword
    exact hstring value rfl
  | keyword word => cases word <;> cases hword <;> trivial
  | symbol s => cases s <;> cases hword <;> trivial
  | lineComment | blockComment | newline | invalid => cases hword

/-- A name of a source that is not the text of a literal stands for a bare word. -/
theorem atomValue?_name {text : String} (h : Token.Leads (some (.name text)) piece back)
    (htext : text ∉ ["true", "false", "undef"]) :
    atomValue? text.toList = some (.word () text) := by
  have hspelling : text.toList = piece := h.spelling rfl
  by_cases hkeyword : ∃ word : Keyword, text = word.text
  · obtain ⟨word, rfl⟩ := hkeyword
    rw [atomValue?_keyword]
    cases word with
    | trueWord | falseWord | undefWord => exact absurd (by decide) htext
    | _ => rfl
  · rw [hspelling]
    refine h.atomValue? rfl fun word hword => hkeyword ⟨word, ?_⟩
    rw [← hspelling] at hword
    exact String.toList_inj.1 hword

end

end CallGrammar
