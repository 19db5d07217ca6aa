import CallGrammar.Proofs.Closing
import CallGrammar.Proofs.Pieces

/-!
# CallGrammar.Proofs.LongestMatch

The scan is longest match over the patterns of the kinds.

1. The text of a token is one of its kind's, and no kind and no blank space has a longer
   one there.
2. A keyword is read as a keyword, unless a colon stands right after it.
3. A bracketed comment goes up to the first `*/` after its opener.
4. Input is invalid only where no kind has a text, or at an opener of a comment that is
   closed nowhere.
-/

namespace CallGrammar

/-! ## the best rule -/

/-- A pattern opens with the first character of each of its texts. -/
theorem Pattern.opensWith_of_cons_mem {p : Pattern} {c : Char} {w : List Char}
    (h : c :: w ∈ p.language) : p.opensWith c = true := by
  by_contra hc
  rw [cons_mem_language, derivative_eq_never (by simpa using hc)] at h
  exact h

namespace Rule

variable {rules rs rs' : List Rule} {r r' : Rule} {cs w : List Char} {n : Nat}

/-- No rule reaches further than the best one. -/
theorem exists_best (hr : r ∈ rules) (h : r.reach cs = some n) :
    ∃ r' m, best rules cs = some (r', m) ∧ n ≤ m := by
  induction rules with
  | nil => cases hr
  | cons r' rs ih =>
    obtain rfl | hr := List.mem_cons.1 hr
    · rw [best, h]
      cases best rs cs with
      | none => exact ⟨r, n, rfl, Nat.le_refl n⟩
      | some found =>
        obtain ⟨r', m⟩ := found
        by_cases hlt : n < m
        · exact ⟨r', m, if_pos hlt, Nat.le_of_lt hlt⟩
        · exact ⟨r, n, if_neg hlt, Nat.le_refl n⟩
    · obtain ⟨r'', m, hbest, hle⟩ := ih hr
      rw [best, hbest]
      cases r'.reach cs with
      | none => exact ⟨r'', m, rfl, hle⟩
      | some n' =>
        by_cases hlt : n' < m
        · exact ⟨r'', m, if_pos hlt, hle⟩
        · exact ⟨r', n', if_neg hlt, Nat.le_trans hle (Nat.not_lt.1 hlt)⟩

/-- The best rule is among the first ones if one of those reaches as far. -/
theorem mem_of_best_append (h : best (rs ++ rs') cs = some (r, n)) (hr' : r' ∈ rs)
    (hreach : r'.reach cs = some n) : r ∈ rs := by
  induction rs with
  | nil => cases hr'
  | cons s rs ih =>
    have htail (hbest : best (rs ++ rs') cs = some (r, n)) (hs : s.reach cs ≠ some n) :
        r ∈ s :: rs := by
      obtain rfl | hr' := List.mem_cons.1 hr'
      · exact absurd hreach hs
      · exact List.mem_cons_of_mem s (ih hbest hr')
    rw [List.cons_append] at h
    unfold best at h
    split at h
    · next hs => exact htail h (by simp [hs])
    · cases h
      exact List.mem_cons_self
    · next n' r'' m hs hbest =>
      split at h
      · next hlt =>
        cases h
        exact htail hbest (by rw [hs]; simpa using Nat.ne_of_lt hlt)
      · cases h
        exact List.mem_cons_self

/-- What the best rule takes is of its pattern. -/
theorem mem_language_of_best {back : List Char}
    (h : best rules (w ++ back) = some (r, w.length)) : r ∈ rules ∧ w ∈ r.pattern.language := by
  obtain ⟨hr, hreach⟩ := mem_of_best h
  have hmem := Pattern.take_mem_language (longest_of_reach hreach)
  rw [List.take_left' rfl] at hmem
  exact ⟨hr, hmem⟩

/-- A rule that counts before anything makes the best match as long as its own texts. -/
theorem exists_best_of_mem (hr : r ∈ rules) (hbefore : r.notBefore = none)
    (hw : w ∈ r.pattern.language) (hfront : w <+: cs) :
    ∃ r' m, best rules cs = some (r', m) ∧ w.length ≤ m := by
  obtain ⟨n, hn, hle⟩ := Pattern.exists_longest hfront hw
  have hreach : r.reach cs = some n := by simp [reach, hn, hbefore]
  obtain ⟨r', m, hbest, hle'⟩ := exists_best hr hreach
  exact ⟨r', m, hbest, Nat.le_trans hle hle'⟩

end Rule

/-! ## the patterns of the kinds -/

/-- Keywords are told apart by their texts. -/
theorem Keyword.eq_of_text {word word' : Keyword} (h : word.text.toList = word'.text.toList) :
    word = word' := by
  cases word <;> cases word' <;> first | rfl | exact absurd h (by decide)

/-- The pattern of a kind's tokens.  Of a bracketed comment it is the opener alone: what
comes after that is searched for its closer. -/
def Kind.pattern : Kind → Pattern
  | keyword word => .text word.text
  | symbol s => .text s.text
  | integer _ => .alt Rule.digits Rule.hexadecimal
  | float _ => .alt Rule.decimalFraction Rule.scaledInteger
  | singleQuoted _ => Rule.closedString '\''
  | doubleQuoted _ => Rule.closedString '"'
  | name _ => Rule.qualified (Rule.capitalised Char.isLower)
  | reference _ => Rule.qualified (Rule.capitalised Char.isUpper)
  | var _ => Rule.variableName
  | lineComment _ => Rule.lineComment
  | blockComment _ => .text "/*"
  | newline => .char '\n'
  | invalid _ => .never

/-- The pattern of a piece: a token of the kind, or blank space. -/
def Token.pattern : Option Kind → Pattern
  | some k => k.pattern
  | none => .plus (.one Rule.isBlank)

/-- What the longest match says of a token whose text is `piece`, right before `back`. -/
def Kind.Longest (k : Kind) (piece back : List Char) : Prop :=
  match k with
  | invalid _ =>
    (∀ found, ∀ w ∈ (Token.pattern found).language, w <+: piece ++ back → w = []) ∨
      ∃ rest, piece ++ back = '/' :: '*' :: rest ∧ ¬ Comment.closing <:+: rest
  | blockComment text =>
    piece = '/' :: '*' :: (text.toList ++ Comment.closing) ∧
      ∀ w, w ++ Comment.closing <+: text.toList ++ Comment.closing ++ back →
        text.toList.length ≤ w.length
  | k =>
    piece ∈ k.pattern.language ∧
      (∀ found, ∀ w ∈ (Token.pattern found).language, w <+: piece ++ back →
        w.length ≤ piece.length) ∧
      ∀ word : Keyword, piece = word.text.toList → (k = keyword word ↔ back.head? ≠ some ':')

namespace Rule

variable {r : Rule} {w : List Char} {found : Option Kind}

/-- What a rule reads is blank space, or a text of the kind; or it is a bracketed comment,
or a fault. -/
theorem mem_language_of_read (hr : r ∈ table) (hw : w ∈ r.pattern.language) :
    match r.read w with
    | some (.invalid _) => r ∈ faults
    | some (.blockComment text) =>
      r.pattern = blockComment ∧ text = String.ofList ((w.drop 2).dropLast.dropLast)
    | some (.keyword word) => r = keyword word
    | found => w ∈ (Token.pattern found).language := by
  simp only [table, words, classes, List.mem_append, List.mem_map, List.mem_cons,
    List.not_mem_nil, or_false] at hr
  obtain ((⟨word, -, rfl⟩ | ⟨s, -, rfl⟩) | rfl | rfl | rfl | rfl | rfl | rfl | rfl | rfl | rfl |
    rfl | rfl | rfl | rfl) | hr := hr
  case inr =>
    have hread : ∃ fault, r.read w = some (.invalid fault) := by
      simp only [faults, List.mem_cons, List.not_mem_nil, or_false] at hr
      obtain rfl | rfl | rfl := hr <;> exact ⟨_, rfl⟩
    obtain ⟨fault, hread⟩ := hread
    rw [hread]
    exact hr
  all_goals first
    | rfl
    | exact ⟨rfl, rfl⟩
    | exact hw
    | exact .inl hw
    | exact .inr hw

theorem mem_table_of_mem_classes (h : r ∈ classes) : r ∈ table :=
  List.mem_append_left _ (List.mem_append_right _ h)

/-- Every symbol has its rule. -/
theorem symbol_mem_table (s : Symbol) : symbol s ∈ table :=
  List.mem_append_left _ (List.mem_append_left _ (List.mem_append_right _
    (List.mem_map_of_mem s.mem_all)))

/-- An open string has a rule for either quote. -/
theorem openString_mem_table {quote : Char} (hquote : quote = '\'' ∨ quote = '"') :
    ⟨openString quote, none, fun _ => some (.invalid .unterminatedString)⟩ ∈ table := by
  obtain rfl | rfl := hquote
  · exact List.mem_append_right _ (by simp [faults])
  · exact List.mem_append_right _ (by simp [faults])

/-- A text of a kind is matched by some rule, whatever stands after it. -/
theorem exists_of_mem_pattern (hw : w ∈ (Token.pattern found).language) :
    ∃ r ∈ table, r.notBefore = none ∧ w ∈ r.pattern.language := by
  have hclass {p : Pattern} (hp : p ∈ classes.map (·.pattern)) (hw : w ∈ p.language) :
      ∃ r ∈ table, r.notBefore = none ∧ w ∈ r.pattern.language := by
    obtain ⟨r, hr, rfl⟩ := List.mem_map.1 hp
    have hall : ∀ r ∈ classes, r.notBefore = none := by simp [classes, texts]
    exact ⟨r, mem_table_of_mem_classes hr, hall r hr, hw⟩
  have hname (hw : w ∈ (qualified (capitalised Char.isLower)).language) :=
    hclass (by simp [classes, texts]) hw
  cases found with
  | none => exact hclass (by simp [classes, texts, Token.pattern]) hw
  | some k =>
    cases k with
    | keyword word =>
      -- right before a colon no keyword rule counts, but that of names does
      have hlower : word.text.toList ∈ (qualified (capitalised Char.isLower)).language := by
        cases word <;> decide
      exact hname (Pattern.mem_language_text.1 hw ▸ hlower)
    | symbol s => exact ⟨symbol s, symbol_mem_table s, rfl, hw⟩
    | integer | float =>
      obtain hw | hw := hw
      · exact hclass (by simp [classes, texts]) hw
      · exact hclass (by simp [classes, texts]) hw
    | singleQuoted | doubleQuoted | reference | var | lineComment | newline =>
      exact hclass (by simp [classes, texts, Token.pattern, Kind.pattern]) hw
    | name => exact hname hw
    | blockComment =>
      exact ⟨⟨.text "/*", none, fun _ => some (.invalid .unterminatedComment)⟩,
        List.mem_append_right _ List.mem_cons_self, rfl, hw⟩
    | invalid => exact absurd hw Pattern.mem_language_never.1

end Rule

namespace Token

variable {found found' : Option Kind} {kind : Kind} {piece back w cs : List Char}

/-- No rule that looks at nothing behind it matches more than the lexeme. -/
theorem Leads.length_le_of_rule (h : Leads found piece back) {r : Rule} (hr : r ∈ Rule.table)
    (hbefore : r.notBefore = none) (hw : w ∈ r.pattern.language)
    (hfront : w <+: piece ++ back) : w.length ≤ piece.length := by
  obtain ⟨r', m, hbest, hle⟩ := Rule.exists_best_of_mem hr hbefore hw hfront
  obtain ⟨r'', hbest', -⟩ | ⟨hnone, -⟩ := h.best
  · rw [hbest] at hbest'
    cases hbest'
    exact hle
  · rw [hbest] at hnone
    cases hnone

/-- No pattern of a piece has a longer text where a piece stands. -/
theorem Leads.length_le (h : Leads found piece back) (hw : w ∈ (pattern found').language)
    (hfront : w <+: piece ++ back) : w.length ≤ piece.length := by
  obtain ⟨r, hr, hbefore, hmem⟩ := Rule.exists_of_mem_pattern hw
  exact h.length_le_of_rule hr hbefore hmem hfront

/-- A lexeme that is no unexpected character was read by the best rule. -/
theorem Leads.exists_read (h : Leads (some kind) piece back)
    (hvalid : ∀ c, kind ≠ .invalid (.unexpectedCharacter c)) :
    ∃ r ∈ Rule.table, Rule.best Rule.table (piece ++ back) = some (r, piece.length) ∧
      piece ∈ r.pattern.language ∧ r.read piece = some kind := by
  obtain ⟨r, hbest, hread⟩ | ⟨-, c, -, hfault⟩ := h.best
  · obtain ⟨hr, hmem⟩ := Rule.mem_language_of_best hbest
    exact ⟨r, hr, hbest, hmem, hread⟩
  · exact absurd (Option.some.inj hfault) (hvalid c)

/-! ## keywords -/

/-- The text of a keyword is one unless a colon follows. -/
theorem Leads.keyword_iff (h : Leads (some kind) piece back) {word : Keyword}
    (hpiece : piece = word.text.toList) : kind = .keyword word ↔ back.head? ≠ some ':' := by
  have hlongest : (Pattern.text word.text).longest (piece ++ back) = some piece.length := by
    rw [hpiece, Pattern.longest_text]
  have hdrop : (piece ++ back).drop piece.length = back := List.drop_left' rfl
  constructor
  · rintro rfl hcolon
    obtain ⟨r, hr, hbest, hmem, hread⟩ := h.exists_read nofun
    have hrule := Rule.mem_language_of_read hr hmem
    rw [hread] at hrule
    obtain rfl : r = Rule.keyword word := hrule
    have hreach := (Rule.mem_of_best hbest).2
    simp [Rule.reach, Rule.keyword, hlongest, hdrop, hcolon] at hreach
  · intro hcolon
    have hreach : (Rule.keyword word).reach (piece ++ back) = some piece.length := by
      simp [Rule.reach, Rule.keyword, hlongest, hdrop, hcolon]
    have hall : Rule.keyword word ∈ Keyword.all.map Rule.keyword :=
      List.mem_map_of_mem word.mem_all
    have htable : Rule.table = Keyword.all.map Rule.keyword ++
        (Symbol.all.map Rule.symbol ++ (Rule.classes ++ Rule.faults)) := by
      simp [Rule.table, Rule.words]
    obtain ⟨r, hbest, hread⟩ | ⟨hnone, -⟩ := h.best
    · rw [htable] at hbest
      obtain ⟨word', -, rfl⟩ := List.mem_map.1 (Rule.mem_of_best_append hbest hall hreach)
      have hmem' := Pattern.mem_language_text.1 (Rule.mem_language_of_best hbest).2
      have htext : word'.text.toList = word.text.toList := hmem'.symm.trans hpiece
      rw [Keyword.eq_of_text htext] at hread
      exact (Option.some.inj hread).symm
    · obtain ⟨r, m, hbest, -⟩ :=
        Rule.exists_best (htable ▸ List.mem_append_left _ hall) hreach
      rw [hnone] at hbest
      cases hbest

/-! ## bracketed comments -/

/-- A block comment goes on to the first `*/`. -/
theorem Leads.longest_blockComment {text : String}
    (h : Leads (some (.blockComment text)) piece back) :
    (Kind.blockComment text).Longest piece back := by
  obtain ⟨r, hr, -, hmem, hread⟩ := h.exists_read nofun
  have hrule := Rule.mem_language_of_read hr hmem
  rw [hread] at hrule
  obtain ⟨hpattern, rfl⟩ := hrule
  rw [hpattern] at hmem
  obtain ⟨inner, rfl, hinner⟩ := Comment.mem_language_blockComment.1 hmem
  have hpayload : ((('/' :: '*' :: (inner ++ Comment.closing)).drop 2).dropLast).dropLast
      = inner := by
    simp [Comment.closing]
  rw [hpayload]
  refine ⟨by rw [String.toList_ofList], fun w hw => ?_⟩
  rw [String.toList_ofList] at hw ⊢
  by_contra hlt
  have hfront : inner ++ ['*'] <+: inner ++ Comment.closing ++ back :=
    ⟨'/' :: back, by simp [Comment.closing]⟩
  have hle : (w ++ Comment.closing).length ≤ (inner ++ ['*']).length := by
    simp only [Comment.closing, List.length_append, List.length_cons, List.length_nil]
    omega
  have hearly := List.prefix_of_prefix_length_le hw hfront hle
  exact hinner ((List.suffix_append w Comment.closing).isInfix.trans hearly.isInfix)

/-! ## faults -/

/-- Where a piece is an opener alone, no comment begins. -/
theorem Leads.unclosed (h : Leads found "/*".toList back) : ¬ Comment.closing <:+: back := by
  intro hclosing
  obtain ⟨inner, rest, rfl, hinner⟩ := Comment.exists_first_closing hclosing
  have hrule : ⟨Rule.blockComment, none, fun cs =>
      some (.blockComment (String.ofList ((cs.drop 2).dropLast.dropLast)))⟩ ∈ Rule.table :=
    Rule.mem_table_of_mem_classes (by simp [Rule.classes])
  have hmem := Comment.mem_language_blockComment.2 ⟨inner, rfl, hinner⟩
  have hfront : '/' :: '*' :: (inner ++ Comment.closing)
      <+: "/*".toList ++ (inner ++ (Comment.closing ++ rest)) := ⟨rest, by simp⟩
  have hle := h.length_le_of_rule hrule rfl hmem hfront
  simp [Comment.closing] at hle

/-- A piece that begins with a quote is a string. -/
theorem pattern_of_opensWith {quote : Char} (hquote : quote = '\'' ∨ quote = '"')
    (h : (pattern found).opensWith quote = true) : pattern found = Rule.closedString quote := by
  obtain rfl | rfl := hquote
  all_goals
    cases found with
    | none => exact Bool.noConfusion h
    | some k =>
      cases k with
      | keyword word => cases word <;> exact Bool.noConfusion h
      | symbol s => cases s <;> exact Bool.noConfusion h
      | _ => first | rfl | exact Bool.noConfusion h

/-- Where an open string is the longest match, no whole one begins. -/
theorem Leads.eq_nil_of_openString {quote : Char} (hquote : quote = '\'' ∨ quote = '"')
    (h : Leads found piece back) (hpiece : piece ∈ (Rule.openString quote).language)
    (hw : w ∈ (pattern found').language) (hfront : w <+: piece ++ back) : w = [] := by
  cases w with
  | nil => rfl
  | cons c w =>
    obtain ⟨rest, rfl⟩ : c :: w <+: piece :=
      List.prefix_of_prefix_length_le hfront (List.prefix_append piece back) (h.length_le hw hfront)
    obtain ⟨cs, hcs⟩ := Quoted.exists_of_mem_openString hpiece
    obtain rfl : c = quote := (List.cons.inj hcs).1
    have hclosed := pattern_of_opensWith hquote (Pattern.opensWith_of_cons_mem hw)
    rw [hclosed, Pattern.mem_language] at hw
    have hslash : c ≠ '\\' := by obtain rfl | rfl := hquote <;> decide
    obtain hopen | ⟨-, hnever⟩ := Quoted.open_or_over hslash w
    · rw [(hopen.step hslash).1] at hw
      cases hw
    · rw [Pattern.mem_language, Pattern.derivatives_append, hnever,
        Pattern.derivatives_never] at hpiece
      cases hpiece

/-- A fault is an opener of a comment, an open string, or a character at which nothing
matches. -/
theorem Leads.fault {fault : Fault} (h : Leads (some (.invalid fault)) piece back) :
    (fault = .unterminatedComment ∧ piece = "/*".toList) ∨
    (fault = .unterminatedString ∧ ∃ quote, (quote = '\'' ∨ quote = '"') ∧
      piece ∈ (Rule.openString quote).language) ∨
    ∃ c, fault = .unexpectedCharacter c ∧ piece = [c] ∧
      Rule.best Rule.table (piece ++ back) = none := by
  obtain ⟨r, hbest, hread⟩ | ⟨hnone, c, hpiece, hfault⟩ := h.best
  · obtain ⟨hr, hmem⟩ := Rule.mem_language_of_best hbest
    have hfault := Rule.mem_language_of_read hr hmem
    rw [hread] at hfault
    simp only [Rule.faults, List.mem_cons, List.not_mem_nil, or_false] at hfault
    obtain rfl | rfl | rfl := hfault <;> cases hread
    · exact .inl ⟨rfl, Pattern.mem_language_text.1 hmem⟩
    · exact .inr (.inl ⟨rfl, '\'', .inl rfl, hmem⟩)
    · exact .inr (.inl ⟨rfl, '"', .inr rfl, hmem⟩)
  · cases hfault
    exact .inr (.inr ⟨c, rfl, hpiece, hnone⟩)

/-- A fault is the longest of its kind. -/
theorem Leads.longest_invalid {fault : Fault} (h : Leads (some (.invalid fault)) piece back) :
    (Kind.invalid fault).Longest piece back := by
  obtain ⟨-, rfl⟩ | ⟨-, quote, hquote, hmem⟩ | ⟨c, -, -, hnone⟩ := h.fault
  · exact .inr ⟨back, rfl, h.unclosed⟩
  · exact .inl fun found w hw hfront => h.eq_nil_of_openString hquote hmem hw hfront
  · refine .inl fun found w hw hfront => ?_
    obtain ⟨r, hr, hbefore, hmem⟩ := Rule.exists_of_mem_pattern hw
    obtain ⟨r', m, hbest, -⟩ := Rule.exists_best_of_mem hr hbefore hmem hfront
    rw [hnone] at hbest
    cases hbest

/-! ## all tokens -/

/-- Whatever leads a text is the longest of its kind. -/
theorem Leads.longest (h : Leads (some kind) piece back) : kind.Longest piece back := by
  unfold Kind.Longest
  split
  · exact h.longest_invalid
  · exact h.longest_blockComment
  · next hinvalid hcomment =>
    obtain ⟨r, hr, -, hmem, hread⟩ := h.exists_read fun c => hinvalid _
    refine ⟨?_, fun found w hw hfront => h.length_le hw hfront, fun word => h.keyword_iff⟩
    have hrule := Rule.mem_language_of_read hr hmem
    rw [hread] at hrule
    split at hrule
    · next hk => exact absurd (Option.some.inj hk) (hinvalid _)
    · next hk => exact absurd (Option.some.inj hk) (hcomment _)
    · next hk =>
      rw [hrule] at hmem
      cases hk
      exact hmem
    · exact hrule

/-- **Longest match**: each token of a source is read by the longest match where it stands,
and invalid input stands only where no word does. -/
theorem longest_of_mem_ofText {source : String} {t : Token Span} (ht : t ∈ ofText source) :
    ∃ piece back, t.span.Cuts 0 source.toList piece back ∧ t.kind.Longest piece back := by
  obtain ⟨piece, back, hcuts, hleads⟩ :=
    (divides_scan 0 false source.toList).exists_cuts t ht
  exact ⟨piece, back, hcuts, hleads.longest⟩

/-- A number that backs out of an exponent, before a keyword that a colon makes a name. -/
theorem longest_of_mem_ofText_exponent :
    ⟨.integer "1", ⟨6, 7⟩, false⟩ ∈ ofText "/* */ 1e+if:é" ∧
    ∃ piece back, Span.Cuts ⟨6, 7⟩ 0 "/* */ 1e+if:é".toList piece back ∧
      (Kind.integer "1").Longest piece back := by
  have hmem : (⟨.integer "1", ⟨6, 7⟩, false⟩ : Token Span) ∈ ofText "/* */ 1e+if:é" := by decide
  exact ⟨hmem, longest_of_mem_ofText hmem⟩

end Token

end CallGrammar
