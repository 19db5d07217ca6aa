import CallGrammar.Proofs.Munch

/-!
# CallGrammar.Proofs.Spelling

Texts written as pieces, and the tokens they are read as.  A piece is a word or a
space.  Each word is lone: its spelling is read as that word.  Where in addition each
piece may stand before the next one, the tokens of the whole text are its words.
-/

namespace CallGrammar

/-! ## spellings -/

namespace Quoted

/-- The characters of a string, a backslash before each backslash and quote. -/
def escape : List Char → List Char
  | [] => []
  | c :: cs => if c = '\\' ∨ c = '\'' then '\\' :: c :: escape cs else c :: escape cs

/-- The single-quoted literal of a string. -/
def single (s : String) : List Char := '\'' :: (escape s.toList ++ ['\''])

end Quoted

namespace Kind

/-- What a word is written as. -/
def spelling : Kind → List Char
  | keyword word => word.text.toList
  | symbol s => s.text.toList
  | integer s | float s | name s | reference s => s.toList
  | var s => '$' :: s.toList
  | singleQuoted s => Quoted.single s
  | doubleQuoted _ | lineComment _ | blockComment _ | newline | invalid _ => []

/-- The kinds whose spelling is their own text. -/
def isAtom : Kind → Bool
  | integer _ | float _ | name _ | reference _ | var _ => true
  | _ => false

/-- The spelling is read as this one word. -/
def LexesAlone (k : Kind) : Prop :=
  (Token.ofText (String.ofList k.spelling)).map (·.kind) = [k]

instance (k : Kind) : Decidable k.LexesAlone :=
  inferInstanceAs (Decidable ((Token.ofText (String.ofList k.spelling)).map (·.kind) = [k]))

/-- The words that pieces are made of: those of fixed spelling, single-quoted strings,
and atoms that are read as themselves. -/
def Lone : Kind → Prop
  | keyword _ | symbol _ | singleQuoted _ => True
  | k => k.isAtom = true ∧ k.LexesAlone

end Kind

/-! ## atoms -/

/-- The characters that the spelling of an atom begins with. -/
def isAtomStart (c : Char) : Bool := c.isAlphanum || c == '$' || c == ':'

theorem isAlphanum_eq (c : Char) : c.isAlphanum = (c.isUpper || c.isLower || c.isDigit) := rfl

def asciiChars : List Char := (List.range 128).map Char.ofNat

/-- The characters that may stand right after a word that is no symbol. -/
def delimiters : List Char := [' ', ')', ',', ']', '}', ';', '(', '|']

theorem mem_asciiChars {c : Char} (h : c.toNat < 128) : c ∈ asciiChars :=
  List.mem_map.2 ⟨c.toNat, List.mem_range.2 h, Char.ofNat_toNat c⟩

/-- The characters up to one of them. -/
theorem mem_asciiChars_of_le {c d : Char} (hd : d.toNat < 128) (h : c.val ≤ d.val) :
    c ∈ asciiChars :=
  mem_asciiChars (Nat.lt_of_le_of_lt (UInt32.le_iff_toNat_le.1 h) hd)

/-- Every atom begins with one of finitely many characters. -/
theorem mem_asciiChars_of_isAtomStart {c : Char} (h : isAtomStart c = true) :
    c ∈ asciiChars := by
  simp only [isAtomStart, isAlphanum_eq, Bool.or_eq_true, beq_iff_eq] at h
  obtain (((hupper | hlower) | hdigit) | rfl) | rfl := h
  · have hZ : 'Z'.toNat < 128 := by decide
    exact mem_asciiChars_of_le hZ (of_decide_eq_true hupper).2
  · have hz : 'z'.toNat < 128 := by decide
    exact mem_asciiChars_of_le hz (of_decide_eq_true (Bool.and_eq_true_iff.1 hlower).2)
  · have h9 : '9'.toNat < 128 := by decide
    exact mem_asciiChars_of_le h9 (of_decide_eq_true (Bool.and_eq_true_iff.1 hdigit).2)
  · exact mem_asciiChars (by decide)
  · exact mem_asciiChars (by decide)

/-- No atom begins with a blank. -/
theorem not_isBlank_of_isAtomStart {c : Char} (h : isAtomStart c = true) :
    Rule.isBlank c = false := by
  by_cases hc : Rule.isBlank c = true
  · simp only [Rule.isBlank, Bool.or_eq_true, beq_iff_eq] at hc
    obtain (rfl | rfl) | rfl := hc <;> cases h
  · simpa using hc

theorem isAtomStart_of_isDigit {c : Char} (h : c.isDigit = true) : isAtomStart c = true := by
  simp [isAtomStart, isAlphanum_eq, h]

theorem isAtomStart_of_isLower {c : Char} (h : c.isLower = true) : isAtomStart c = true := by
  simp [isAtomStart, isAlphanum_eq, h]

theorem isAtomStart_of_isUpper {c : Char} (h : c.isUpper = true) : isAtomStart c = true := by
  simp [isAtomStart, isAlphanum_eq, h]

namespace Rule

variable {r : Rule} {c d : Char} {cs w : List Char} {k : Kind} {n : Nat}

/-- What a number may begin with, for each of its patterns. -/
theorem opensWith_number (c : Char) :
    digits.opensWith c = c.isDigit ∧ hexadecimal.opensWith c = (c == '0') ∧
      decimalFraction.opensWith c = c.isDigit ∧ scaledInteger.opensWith c = c.isDigit := by
  simp [digits, hexadecimal, decimalFraction, scaledInteger, exponent, Pattern.plus,
    Pattern.sequence, Pattern.optional, Pattern.char, Pattern.followedBy, Pattern.or,
    Pattern.opensWith, Pattern.nullable]

/-- What a qualified name may begin with. -/
theorem opensWith_qualified (first : Char → Bool) (c : Char) :
    (qualified (capitalised first)).opensWith c = (c == ':' || first c) := by
  simp [qualified, capitalised, Pattern.sequence, Pattern.optional, Pattern.text, Pattern.char,
    Pattern.followedBy, Pattern.or, Pattern.opensWith, Pattern.nullable]

theorem opensWith_variableName (c : Char) : variableName.opensWith c = (c == '$') := by
  simp [variableName, qualified, Pattern.sequence, Pattern.optional, Pattern.plus, Pattern.text,
    Pattern.char, Pattern.followedBy, Pattern.or, Pattern.opensWith, Pattern.nullable]

/-- A rule that reads an atom reads it from its spelling. -/
theorem spelling_of_read (hr : r ∈ table) (hk : k.isAtom = true)
    (hopens : r.pattern.opensWith c = true) (hread : r.read (c :: cs) = some k) :
    k.spelling = c :: cs ∧ isAtomStart c = true := by
  simp only [table, words, classes, faults, List.mem_append, List.mem_map, List.mem_cons,
    List.not_mem_nil, or_false] at hr
  obtain ((⟨word, -, rfl⟩ | ⟨s, -, rfl⟩) | rfl | rfl | rfl | rfl | rfl | rfl | rfl | rfl | rfl |
    rfl | rfl | rfl | rfl) | rfl | rfl | rfl := hr
  all_goals cases hread
  all_goals try cases hk
  all_goals
    simp only [texts, opensWith_number, opensWith_qualified, opensWith_variableName, beq_iff_eq,
      Bool.or_eq_true] at hopens
  · exact ⟨String.toList_ofList, isAtomStart_of_isDigit hopens⟩
  · obtain rfl := hopens
    exact ⟨String.toList_ofList, rfl⟩
  · exact ⟨String.toList_ofList, isAtomStart_of_isDigit hopens⟩
  · exact ⟨String.toList_ofList, isAtomStart_of_isDigit hopens⟩
  · obtain rfl | hc := hopens
    · exact ⟨String.toList_ofList, rfl⟩
    · exact ⟨String.toList_ofList, isAtomStart_of_isLower hc⟩
  · obtain rfl | hc := hopens
    · exact ⟨String.toList_ofList, rfl⟩
    · exact ⟨String.toList_ofList, isAtomStart_of_isUpper hc⟩
  · obtain rfl := hopens
    exact ⟨congrArg _ String.toList_ofList, rfl⟩

end Rule

namespace Token

variable {c : Char} {cs : List Char} {k : Kind} {n : Nat}

/-- An atom that begins a text is read from a front of the text, its spelling. -/
theorem spelling_of_firstPiece (hk : k.isAtom = true) (h : firstPiece c cs = (some k, n)) :
    k.spelling = (c :: cs).take n ∧ n ≤ (c :: cs).length ∧ isAtomStart c = true := by
  unfold firstPiece at h
  split at h
  · next rule m hbest =>
    obtain ⟨hread, rfl⟩ := Prod.mk.inj h
    obtain ⟨hmem, hreach⟩ := Rule.mem_of_best hbest
    have hnull := Rule.nullable_of_mem_table rule hmem
    have hlongest := Rule.longest_of_reach hreach
    have hopens := Pattern.opensWith_of_longest hnull hlongest
    obtain ⟨m, rfl⟩ := Nat.exists_eq_add_of_lt (Rule.best_pos Rule.nullable_of_mem_table hbest)
    rw [Nat.zero_add, List.take_succ_cons] at hread ⊢
    obtain ⟨hspelling, hstart⟩ := Rule.spelling_of_read hmem hk hopens hread
    exact ⟨hspelling, by simpa using Pattern.longest_le hlongest, hstart⟩
  · obtain ⟨hread, -⟩ := Prod.mk.inj h
    cases hread
    cases hk

/-- Each token of a text is the first piece of the rest of it. -/
theorem firstPiece_of_mem_scan {skip offset : Nat} {touchable : Bool} {t : Token Span}
    (h : t ∈ scan skip offset touchable cs) :
    ∃ c' cs' n, c' :: cs' <:+ cs ∧ firstPiece c' cs' = (some t.kind, n) := by
  induction cs generalizing skip offset touchable with
  | nil => cases h
  | cons c cs ih =>
    have hsuffix : cs <:+ c :: cs := List.suffix_cons c cs
    unfold scan at h
    split at h
    · obtain ⟨c', cs', n, hcs, hpiece⟩ := ih h
      exact ⟨c', cs', n, hcs.trans hsuffix, hpiece⟩
    · split at h
      · obtain ⟨c', cs', n, hcs, hpiece⟩ := ih h
        exact ⟨c', cs', n, hcs.trans hsuffix, hpiece⟩
      · next kind n hpiece =>
        obtain rfl | h := List.mem_cons.1 h
        · exact ⟨c, cs, n, List.suffix_rfl, hpiece⟩
        · obtain ⟨c', cs', n, hcs, hpiece⟩ := ih h
          exact ⟨c', cs', n, hcs.trans hsuffix, hpiece⟩

/-- An atom that is read alone is one piece. -/
theorem isPiece_of_lexesAlone (hk : k.isAtom = true) (h : k.LexesAlone) :
    isPiece k.spelling (some k) = true ∧
      ∃ c cs, k.spelling = c :: cs ∧ isAtomStart c = true := by
  unfold Kind.LexesAlone ofText at h
  rw [String.toList_ofList] at h
  cases hs : k.spelling with
  | nil =>
    rw [hs] at h
    cases h
  | cons c cs =>
    rw [hs] at h
    unfold scan at h
    cases hpiece : firstPiece c cs with
    | mk found n =>
      rw [hpiece] at h
      cases found with
      | none =>
        -- after blank space, fewer characters are left than the atom has
        obtain ⟨t, ht, rfl⟩ : ∃ t ∈ scan (n - 1) (0 + c.utf8Size) false cs, t.kind = k :=
          List.mem_map.1 (h ▸ List.mem_singleton_self k)
        obtain ⟨c', cs', m, hsuffix, hpiece'⟩ := firstPiece_of_mem_scan ht
        obtain ⟨hspelling, -, -⟩ := spelling_of_firstPiece hk hpiece'
        have hlen := congrArg List.length (hs.symm.trans hspelling)
        have hle := hsuffix.length_le
        simp only [List.length_cons, List.length_take] at hlen hle
        omega
      | some kind =>
        obtain rfl : kind = k := (List.cons.inj h).1
        obtain ⟨hspelling, hle, hstart⟩ := spelling_of_firstPiece hk hpiece
        have hlen := congrArg List.length (hs.symm.trans hspelling)
        rw [List.length_take, Nat.min_eq_left hle] at hlen
        exact ⟨isPiece_cons.2 (by rw [hpiece, ← hlen, List.length_cons]), c, cs, rfl, hstart⟩

end Token

/-! ## single-quoted strings -/

namespace Quoted

open Pattern

/-- What may stand between two single quotes. -/
def inside : Pattern :=
  .star (.alt (.one fun c => c != '\'' && c != '\\') (.seq (.char '\\') (.one (· != '\n'))))

/-- A pattern that plain characters and escaped pairs lead back to is led back to by an
escaped string. -/
theorem derivatives_escape {p : Pattern}
    (hplain : ∀ c, c ≠ '\\' → c ≠ '\'' → p.derivative c = p)
    (hpair : ∀ c, c = '\\' ∨ c = '\'' → p.derivatives ['\\', c] = p) (cs : List Char) :
    p.derivatives (escape cs) = p := by
  induction cs with
  | nil => rfl
  | cons c cs ih =>
    unfold escape
    split
    · next hc =>
      have hsplit := derivatives_append ['\\', c] (escape cs) p
      rw [hpair c hc, ih] at hsplit
      exact hsplit
    · next hc =>
      obtain ⟨hslash, hquote⟩ := not_or.1 hc
      rw [derivatives, List.foldl_cons, hplain c hslash hquote]
      exact ih

/-- An escaped text leaves a string as open as it was. -/
theorem derivatives_inside (cs : List Char) : inside.derivatives (escape cs) = inside := by
  apply derivatives_escape
  · intro c hslash hquote
    simp [inside, Pattern.derivative, Pattern.char, Pattern.nullable, Pattern.followedBy,
      Pattern.or, hslash, hquote]
  · rintro c (rfl | rfl) <;> rfl

/-- With the quote still to come, too. -/
theorem derivatives_inside_quote (cs : List Char) :
    (Pattern.seq inside (.char '\'')).derivatives (escape cs) = .seq inside (.char '\'') := by
  apply derivatives_escape
  · intro c hslash hquote
    simp [inside, Pattern.derivative, Pattern.char, Pattern.nullable, Pattern.followedBy,
      Pattern.or, hslash, hquote]
  · rintro c (rfl | rfl) <;> rfl

/-- The whole literal is all that a closed string asks for. -/
theorem derivatives_closedString (s : String) :
    (Rule.closedString '\'').derivatives (single s) = .nothing := by
  show (Pattern.seq inside (.char '\'')).derivatives (escape s.toList ++ ['\'']) = .nothing
  rw [derivatives_append, derivatives_inside_quote]
  rfl

/-- The closing quote is more than what an open string asks for. -/
theorem derivatives_openString (s : String) :
    (Rule.openString '\'').derivatives (single s) = .never := by
  show inside.derivatives (escape s.toList ++ ['\'']) = .never
  rw [derivatives_append, derivatives_inside]
  rfl

/-- What has been escaped is decoded to what it was. -/
theorem decode_escape (cs : List Char) : decode '\'' (escape cs) = cs := by
  induction cs with
  | nil => rfl
  | cons c cs ih =>
    unfold escape
    split
    · next hc =>
      obtain rfl | rfl := hc
      · simp [decode, unescape, ih]
      · simp [decode, unescape, ih]
    · next hc =>
      obtain ⟨hslash, -⟩ := not_or.1 hc
      simp [decode, hslash, ih]

/-- The literal written for a text has that text as its value. -/
theorem value_single (s : String) : value '\'' (single s) = s := by
  rw [value, single, List.drop_succ_cons, List.drop_zero, List.dropLast_concat, decode_escape,
    String.ofList_toList]

end Quoted

/-- The rules that may begin with a single quote. -/
theorem Rule.filter_table_quote :
    table.filter (·.pattern.opensWith '\'') =
      [⟨closedString '\'', none, fun cs => some (.singleQuoted (Quoted.value '\'' cs))⟩,
        ⟨openString '\'', none, fun _ => some (.invalid .unterminatedString)⟩] := rfl

/-- Behind the closing quote nothing goes on. -/
theorem Rule.isOver_single (s : String) : isOver (Quoted.single s) = true := by
  apply List.all_eq_true.2
  intro r hr
  by_cases hopens : r.pattern.opensWith '\'' = true
  · have hmem : r ∈ table.filter (·.pattern.opensWith '\'') := List.mem_filter.2 ⟨hr, hopens⟩
    rw [filter_table_quote] at hmem
    simp only [List.mem_cons, List.not_mem_nil, or_false] at hmem
    obtain rfl | rfl := hmem
    · simp [Quoted.derivatives_closedString, Pattern.isEmpty]
    · simp [Quoted.derivatives_openString, Pattern.isEmpty]
  · have hnever : r.pattern.derivative '\'' = .never :=
      Pattern.derivative_eq_never (by simpa using hopens)
    have hderivatives : r.pattern.derivatives (Quoted.single s) = .never := by
      rw [Quoted.single, Pattern.derivatives, List.foldl_cons, hnever]
      exact Pattern.derivatives_never _
    simp [hderivatives, Pattern.isEmpty, Pattern.nullable]

/-- The single-quoted literal of a string is read as the string. -/
theorem Token.isPiece_single (s : String) :
    isPiece (Quoted.single s) (some (.singleQuoted s)) = true := by
  have hlongest : (Rule.closedString '\'').longest (Quoted.single s)
      = some (Quoted.single s).length :=
    Pattern.longest_eq_length (by rw [Quoted.derivatives_closedString]; rfl)
  have hreach : Rule.reach ⟨Rule.closedString '\'', none,
      fun cs => some (.singleQuoted (Quoted.value '\'' cs))⟩ (Quoted.single s)
      = some (Quoted.single s).length := by
    simp [Rule.reach, hlongest]
  have hbest := Rule.best_of_whole hreach
    [⟨Rule.openString '\'', none, fun _ => some (.invalid .unterminatedString)⟩]
  rw [← Rule.filter_table_quote, Quoted.single, ← Rule.best_filter Rule.nullable_of_mem_table]
    at hbest
  apply isPiece_cons.2
  unfold firstPiece
  simp only [hbest, List.take_length]
  rw [← Quoted.single, Quoted.value_single]
  rfl

end CallGrammar
