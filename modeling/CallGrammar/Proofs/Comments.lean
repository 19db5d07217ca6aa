import CallGrammar.Proofs.Blanking
import CallGrammar.Proofs.Faults

/-!
# CallGrammar.Proofs.Comments

Comments are blank space: with spaces in their place, byte for byte, a source has the same
words at the same places, the same errors, and is parsed to the same result.

A word is read as before although the text behind it has changed.  No rule that has read on
to where a comment begins goes on from there, be it with the comment or with a space; the
one exception is the search for the closer of a bracketed comment, and blanking puts no
closer where there was none.
-/

namespace CallGrammar

namespace Token

variable {cs cs' piece back back' : List Char} {offset : Nat} {touchable : Bool} {kind : Kind}
  {c d : Char} {w rest : List Char}

/-! ## blank space, character by character -/

/-- A rule for characters of one kind takes all of them that come first. -/
theorem longest_star_one (accepts : Char → Bool) (cs : List Char) :
    (Pattern.star (.one accepts)).longest cs = some (cs.takeWhile accepts).length := by
  induction cs with
  | nil => rfl
  | cons c cs ih =>
    by_cases hc : accepts c = true
    · simp [Pattern.longest_cons, Pattern.derivative, Pattern.followedBy, hc, ih]
    · simp [Pattern.longest_cons, Pattern.derivative, Pattern.followedBy, hc,
        Pattern.longest_never, Pattern.nullable]

/-- The first piece is all blank space that there is. -/
theorem firstPiece_blank (hc : Rule.isBlank c = true) (cs : List Char) :
    firstPiece c cs = (none, (cs.takeWhile Rule.isBlank).length + 1) := by
  have hfilter : Rule.table.filter (·.pattern.opensWith c)
      = [⟨.plus (.one Rule.isBlank), none, fun _ => none⟩] := by
    simp only [Rule.isBlank, Bool.or_eq_true, beq_iff_eq] at hc
    obtain (rfl | rfl) | rfl := hc <;> rfl
  have hlongest : (Pattern.plus (.one Rule.isBlank)).longest (c :: cs)
      = some ((cs.takeWhile Rule.isBlank).length + 1) := by
    have hnext : (Pattern.plus (.one Rule.isBlank)).derivative c
        = .star (.one Rule.isBlank) := by
      simp [Pattern.plus, Pattern.followedBy, Pattern.derivative, Pattern.nullable, hc]
    rw [Pattern.longest_cons, hnext, longest_star_one]
  unfold firstPiece
  rw [Rule.best_filter Rule.nullable_of_mem_table, hfilter]
  simp [Rule.best, Rule.reach, hlongest]

/-- A blank character is passed. -/
theorem scan_cons_blank (hc : Rule.isBlank c = true) (offset : Nat) (touchable : Bool)
    (cs : List Char) :
    scan 0 offset touchable (c :: cs) = scan 0 (offset + c.utf8Size) false cs := by
  rw [scan_blank (firstPiece_blank hc cs), Nat.add_sub_cancel]
  cases cs with
  | nil => rfl
  | cons d cs =>
    by_cases hd : Rule.isBlank d = true
    · rw [List.takeWhile_cons_of_pos hd, List.length_cons, scan_skip,
        scan_blank (firstPiece_blank hd cs), Nat.add_sub_cancel]
    · rw [List.takeWhile_cons_of_neg hd]
      rfl

/-- So is a run of them. -/
theorem scan_blanks (hpiece : ∀ c ∈ piece, Rule.isBlank c = true) (hne : piece ≠ [])
    (offset : Nat) (touchable : Bool) (cs : List Char) :
    scan 0 offset touchable (piece ++ cs) = scan 0 (offset + byteLength piece) false cs := by
  induction piece generalizing offset touchable with
  | nil => exact absurd rfl hne
  | cons c piece ih =>
    rw [List.cons_append, scan_cons_blank (hpiece c List.mem_cons_self), byteLength,
      ← Nat.add_assoc]
    by_cases hnil : piece = []
    · rw [hnil]
      rfl
    · exact ih (fun d hd => hpiece d (List.mem_cons_of_mem c hd)) hnil _ _

/-! ## words before changed text -/

/-- The rule of a word may begin with its first character. -/
theorem Leads.exists_opening (h : Leads (some kind) (c :: cs) back) {r : Rule} (hr : r ∈ Rule.table)
    (hbefore : r.notBefore = none) (hc : [c] ∈ r.pattern.language) :
    ∃ r ∈ Rule.table.filter (·.pattern.opensWith c),
      c :: cs ∈ r.pattern.language ∧ r.read (c :: cs) = some kind := by
  obtain ⟨r', hbest, hread⟩ | ⟨hnone, -⟩ := h.best
  · obtain ⟨hr', hmem⟩ := Rule.mem_language_of_best hbest
    exact ⟨r', List.mem_filter.2 ⟨hr', Pattern.opensWith_of_cons_mem hmem⟩, hmem, hread⟩
  · obtain ⟨r', m, hbest, -⟩ :=
      Rule.exists_best_of_mem hr hbefore hc (⟨cs ++ back, rfl⟩ : [c] <+: c :: cs ++ back)
    rw [hnone] at hbest
    cases hbest

/-- No token begins with a blank. -/
theorem Leads.not_isBlank (h : Leads (some kind) (c :: cs) back) : Rule.isBlank c = false := by
  obtain ⟨c, cs, hcs, hpiece⟩ := h
  obtain ⟨rfl, rfl⟩ := List.cons.inj hcs
  by_contra hblank
  rw [firstPiece_blank (by simpa using hblank)] at hpiece
  cases hpiece

/-- A word that is no comment begins with no hash sign. -/
theorem Leads.ne_hash (h : Leads (some kind) (c :: cs) back) (hk : kind.isComment = false) :
    c ≠ '#' := by
  rintro rfl
  have hrule : Rule.texts Rule.lineComment .lineComment ∈ Rule.table :=
    Rule.mem_table_of_mem_classes (by simp [Rule.classes])
  have hfilter : Rule.table.filter (·.pattern.opensWith '#')
      = [Rule.texts Rule.lineComment .lineComment] := rfl
  have hhash : ['#'] ∈ Rule.lineComment.language := by decide
  obtain ⟨r, hr, -, hread⟩ := h.exists_opening hrule rfl hhash
  rw [hfilter, List.mem_singleton] at hr
  subst hr
  cases hread
  cases hk

/-- A word that is no comment and begins with a slash is the slash alone, or the opener of
a comment that is not closed. -/
theorem Leads.slash (h : Leads (some kind) ('/' :: cs) back) (hk : kind.isComment = false) :
    cs = [] ∧ back.head? ≠ some '*' ∨ cs = ['*'] := by
  have hslash : ['/'] ∈ (Rule.symbol .slash).pattern.language := by decide
  obtain ⟨r, hr, hmem, hread⟩ := h.exists_opening (Rule.symbol_mem_table .slash) rfl hslash
  rw [Rule.filter_table_slash] at hr
  simp only [List.mem_cons, List.not_mem_nil, or_false] at hr
  obtain rfl | rfl | rfl := hr
  · obtain ⟨-, rfl⟩ := List.cons.inj (Pattern.mem_language_text.1 hmem)
    refine .inl ⟨rfl, fun hstar => ?_⟩
    obtain ⟨rest, rfl⟩ := List.head?_eq_some_iff.1 hstar
    have hopener : "/*".toList ∈ (pattern (some (.blockComment ""))).language :=
      Pattern.mem_language_text.2 rfl
    have hle := h.length_le hopener ⟨rest, rfl⟩
    simp at hle
  · cases hread
    cases hk
  · exact .inr (List.cons.inj (Pattern.mem_language_text.1 hmem)).2

/-- No string is open where a comment begins: it would have gone on. -/
theorem Leads.string_over {quote : Char} (hquote : quote = '\'' ∨ quote = '"')
    (h : Leads (some kind) piece (w ++ c :: rest)) (hc : c = '#' ∨ c = '/') (d : Char) :
    ((Rule.closedString quote).derivatives (piece ++ w)).opensWith d = false ∧
      ((Rule.openString quote).derivatives (piece ++ w)).opensWith d = false := by
  obtain ⟨e, piece, rfl⟩ := List.exists_cons_of_ne_nil h.ne_nil
  by_cases he : e = quote
  · subst he
    have hslash : e ≠ '\\' := by obtain rfl | rfl := hquote <;> decide
    rw [List.cons_append]
    obtain hopen | ⟨hclosed, hnever⟩ := Quoted.open_or_over hslash (piece ++ w)
    · -- then the open string matches one character more than the piece has
      obtain ⟨hne, hescape, hnewline⟩ : c ≠ e ∧ c ≠ '\\' ∧ c ≠ '\n' := by
        obtain rfl | rfl := hquote <;> obtain rfl | rfl := hc <;> decide
      have hlonger : (e :: (piece ++ w)) ++ [c] ∈ (Rule.openString e).language := by
        rw [Pattern.mem_language, Pattern.derivatives_append]
        exact hopen.nullable_derivative hne hescape hnewline
      have hle := h.length_le_of_rule (Rule.openString_mem_table hquote) rfl hlonger
        ⟨rest, by simp⟩
      simp only [List.length_append, List.length_cons, List.length_nil] at hle
      omega
    · rw [hnever]
      exact ⟨Pattern.opensWith_of_isEmpty d hclosed, rfl⟩
  · obtain ⟨hclosed, hopen⟩ := Quoted.opensWith_string quote e
    rw [beq_false_of_ne he] at hclosed hopen
    exact ⟨Pattern.opensWith_derivatives_of_opensWith hclosed _,
      Pattern.opensWith_derivatives_of_opensWith hopen _⟩

/-- The patterns that begin with a slash. -/
def slashed : List Pattern := [.text "/", Rule.blockComment, .text "/*"]

/-- They begin with nothing else, and after the slash only a star may go on. -/
theorem opensWith_slashed {p : Pattern} (hp : p ∈ slashed) :
    (c ≠ '/' → p.opensWith c = false) ∧ (c ≠ '*' → (p.derivative '/').opensWith c = false) := by
  have hcomment : Rule.blockComment = .seq (.text "/*") Comment.inside := rfl
  simp only [slashed, hcomment, List.mem_cons, List.not_mem_nil, or_false] at hp
  obtain rfl | rfl | rfl := hp <;>
    simp +contextual [Pattern.text, Pattern.char, Pattern.followedBy, Pattern.opensWith,
      Pattern.nullable, Pattern.derivative, Comment.inside]

theorem Leads.slash_over (h : Leads (some kind) piece (w ++ c :: rest))
    (hk : kind.isComment = false) (hopener : piece ≠ ['/', '*']) {p : Pattern} (hp : p ∈ slashed)
    (hd : d ≠ '*') : (p.derivatives (piece ++ w)).opensWith d = false := by
  obtain ⟨e, cs, rfl⟩ := List.exists_cons_of_ne_nil h.ne_nil
  by_cases he : e = '/'
  · subst he
    obtain ⟨rfl, hstar⟩ | rfl := h.slash hk
    · cases w with
      | nil => exact (opensWith_slashed hp).2 hd
      | cons f w =>
        have hf : f ≠ '*' := by
          rintro rfl
          exact hstar rfl
        exact Pattern.opensWith_derivatives_of_opensWith ((opensWith_slashed hp).2 hf) w
    · exact absurd rfl hopener
  · exact Pattern.opensWith_derivatives_of_opensWith ((opensWith_slashed hp).1 he) (cs ++ w)

/-- The rules that a hash sign, a slash or a space has a part in. -/
theorem filter_table_mark :
    Rule.table.filter (fun r => ['#', '/', ' '].any (r.pattern.mentions ·)) =
      [Rule.symbol .slash,
        ⟨Rule.closedString '\'', none, fun cs => some (.singleQuoted (Quoted.value '\'' cs))⟩,
        ⟨Rule.closedString '"', none, fun cs => some (.doubleQuoted (Quoted.value '"' cs))⟩,
        Rule.texts Rule.lineComment .lineComment,
        ⟨Rule.blockComment, none, fun cs =>
          some (.blockComment (String.ofList ((cs.drop 2).dropLast.dropLast)))⟩,
        ⟨.plus (.one Rule.isBlank), none, fun _ => none⟩,
        ⟨Pattern.text "/*", none, fun _ => some (.invalid .unterminatedComment)⟩,
        ⟨Rule.openString '\'', none, fun _ => some (.invalid .unterminatedString)⟩,
        ⟨Rule.openString '"', none, fun _ => some (.invalid .unterminatedString)⟩] := rfl

/-- Where a comment begins behind a word, no rule asks for the first character of the
comment, or for a space. -/
theorem Leads.opensWith_eq_false (h : Leads (some kind) piece (w ++ c :: rest))
    (hk : kind.isComment = false) (hc : c = '#' ∨ c = '/') (hopener : piece ≠ ['/', '*'])
    {r : Rule} (hr : r ∈ Rule.table) (hd : d ∈ ['#', '/', ' ']) :
    (r.pattern.derivatives (piece ++ w)).opensWith d = false := by
  by_cases hmentions : r.pattern.mentions d = true
  · have hmem : r ∈ Rule.table.filter (fun r => ['#', '/', ' '].any (r.pattern.mentions ·)) :=
      List.mem_filter.2 ⟨hr, List.any_eq_true.2 ⟨d, hd, hmentions⟩⟩
    rw [filter_table_mark] at hmem
    simp only [List.mem_cons, List.not_mem_nil, or_false] at hmem
    have hstar : d ≠ '*' := by
      rintro rfl
      exact absurd hd (by decide)
    obtain ⟨e, cs, rfl⟩ := List.exists_cons_of_ne_nil h.ne_nil
    have hnever {p : Pattern} (hp : p.opensWith e = false) :
        (p.derivatives (e :: cs ++ w)).opensWith d = false :=
      Pattern.opensWith_derivatives_of_opensWith hp (cs ++ w)
    obtain rfl | rfl | rfl | rfl | rfl | rfl | rfl | rfl | rfl := hmem
    · exact h.slash_over hk hopener (by simp [slashed, Rule.symbol, Symbol.text]) hstar
    · exact (h.string_over (.inl rfl) hc d).1
    · exact (h.string_over (.inr rfl) hc d).1
    · apply hnever
      simpa [Rule.texts, Rule.lineComment, Pattern.followedBy, Pattern.char, Pattern.opensWith,
        Pattern.nullable] using h.ne_hash hk
    · exact h.slash_over hk hopener (by simp [slashed]) hstar
    · apply hnever
      simpa [Pattern.plus, Pattern.followedBy, Pattern.opensWith, Pattern.nullable]
        using h.not_isBlank
    · exact h.slash_over hk hopener (by simp [slashed]) hstar
    · exact (h.string_over (.inl rfl) hc d).2
    · exact (h.string_over (.inr rfl) hc d).2
  · exact Pattern.opensWith_of_mentions
      (Pattern.mentions_derivatives (piece ++ w) (by simpa using hmentions))

/-- A rule that takes nothing behind a text does not look at what follows. -/
theorem reach_append_of_isEmpty {r : Rule} (hempty : (r.pattern.derivatives w).isEmpty = true)
    (hbefore : r.notBefore = none) (rest : List Char) : r.reach (w ++ rest) = r.reach w := by
  cases rest with
  | nil => rw [List.append_nil]
  | cons d rest =>
    exact Rule.reach_append (Pattern.opensWith_of_isEmpty d hempty) (by simp [hbefore])

/-- The opener of a comment that is not closed is the same before any text without a
closer. -/
theorem best_opener (h : ¬ Comment.closing <:+: back) (h' : ¬ Comment.closing <:+: back') :
    Rule.best Rule.table ('/' :: '*' :: back') = Rule.best Rule.table ('/' :: '*' :: back) := by
  rw [Rule.best_filter Rule.nullable_of_mem_table, Rule.best_filter Rule.nullable_of_mem_table,
    Rule.filter_table_slash]
  apply Rule.best_congr
  intro r hr
  simp only [List.mem_cons, List.not_mem_nil, or_false] at hr
  have hover {r : Rule} (hempty : (r.pattern.derivatives ['/', '*']).isEmpty = true)
      (hbefore : r.notBefore = none) :
      r.reach ('/' :: '*' :: back') = r.reach ('/' :: '*' :: back) :=
    (reach_append_of_isEmpty hempty hbefore back').trans
      (reach_append_of_isEmpty hempty hbefore back).symm
  obtain rfl | rfl | rfl := hr
  · exact hover rfl rfl
  · rw [Rule.reach_of_none (Comment.longest_blockComment_eq_none.2 h'),
      Rule.reach_of_none (Comment.longest_blockComment_eq_none.2 h)]
  · exact hover rfl rfl

/-- A word that is no comment is read as before when what follows it is blanked. -/
theorem Leads.blanked (h : Leads (some kind) piece back) (hk : kind.isComment = false)
    (hblanks : Blanks back back') : Leads (some kind) piece back' := by
  apply h.congr
  by_cases hopener : piece = ['/', '*']
  · subst hopener
    exact best_opener h.unclosed fun hclosing => h.unclosed (hblanks.closing hclosing)
  · obtain rfl | ⟨w, c, rest, rest', hc, rfl, rfl⟩ := hblanks.eq_or_exists
    · rfl
    · have hall : Rule.table.all (fun r =>
          ['#', '/', ' '].all fun d => r.notBefore != some d) = true := by decide
      have hmark : c ∈ ['#', '/', ' '] := by obtain rfl | rfl := hc <;> decide
      have hreach {r : Rule} (hr : r ∈ Rule.table) {d : Char} (hd : d ∈ ['#', '/', ' '])
          (rest : List Char) : r.reach (piece ++ w ++ d :: rest) = r.reach (piece ++ w) := by
        have hbefore := List.all_eq_true.1 (List.all_eq_true.1 hall r hr) d hd
        exact Rule.reach_append (h.opensWith_eq_false hk hc hopener hr hd)
          fun _ => by simpa using hbefore
      rw [← List.append_assoc, ← List.append_assoc]
      exact Rule.best_congr fun r hr =>
        (hreach hr (by decide) rest').trans (hreach hr hmark rest).symm

/-! ## blanked sources -/

/-- A comment is not passed to the parser. -/
theorem significant_cons_comment {t : Token Span} (ht : t.kind.isComment = true)
    (ts : List (Token Span)) : significant (t :: ts) = significant ts := by
  simp [significant, ht]

/-- Any other token is. -/
theorem significant_cons_word {t : Token Span} (ht : t.kind.isComment = false)
    (ts : List (Token Span)) : significant (t :: ts) = t :: significant ts := by
  simp [significant, ht]

/-- A space is one byte. -/
theorem byteLength_replicate_space (n : Nat) : byteLength (List.replicate n ' ') = n := by
  rw [← length_bytes, bytes_replicate_space, List.length_replicate]

/-- A blanked text has the words of the text. -/
theorem Blanks.significant_scan (h : Blanks cs cs') (offset : Nat) (touchable : Bool) :
    significant (scan 0 offset touchable cs') = significant (scan 0 offset touchable cs) := by
  induction h generalizing offset touchable with
  | nil => rfl
  | blank hleads _ ih =>
    rw [scan_blanks hleads.blank hleads.ne_nil, scan_blanks hleads.blank hleads.ne_nil, ih]
  | word hleads hk hblanks ih =>
    rw [hleads.scan_token, (hleads.blanked hk hblanks).scan_token, significant_cons_word hk,
      significant_cons_word hk, ih]
  | @comment kind piece back back' hleads hk _ ih =>
    have htouch : kind.canBeTouched = false := by
      cases kind <;> first | rfl | cases hk
    have hspaces : ∀ c ∈ List.replicate (byteLength piece) ' ', Rule.isBlank c = true := by
      simp [Rule.isBlank]
    have hne : List.replicate (byteLength piece) ' ' ≠ [] := by
      obtain ⟨c, cs, rfl⟩ := List.exists_cons_of_ne_nil hleads.ne_nil
      have hpos := byteLength_pos c cs
      simpa using Nat.ne_of_gt hpos
    rw [hleads.scan_token, significant_cons_comment hk, htouch, scan_blanks hspaces hne,
      byteLength_replicate_space, ih]

/-- **Comments**: with a space for each byte of its comments, a source has the same words,
at the same places, and the same errors; so it is read in the same way whatever is asked
for, and parsed to the same result. -/
theorem parse_withoutComments (source : String) :
    (withoutComments source).toUTF8.data.toList = (source.toUTF8.data.toList.mapIdx fun i b =>
      if inComment (ofText source) i then 0x20 else b) ∧
    significant (ofText (withoutComments source)) = significant (ofText source) ∧
    errors (ofText (withoutComments source)) = errors (ofText source) ∧
    ∀ calls, Parser.ofSource calls (withoutComments source) = Parser.ofSource calls source ∧
      parse calls (withoutComments source) = parse calls source := by
  obtain ⟨hblanks, hbytes⟩ :
      Blanks source.toList (withoutComments source).toList ∧
        bytes (withoutComments source).toList
          = blankOutBytes (inComment (ofText source)) 0 (bytes source.toList) := by
    rw [withoutComments, String.toList_ofList]
    exact (divides_scan 0 false source.toList).blanks fun _ _ => rfl
  have hsignificant :
      significant (ofText (withoutComments source)) = significant (ofText source) :=
    hblanks.significant_scan 0 false
  have hsize : (withoutComments source).utf8ByteSize = source.utf8ByteSize := by
    have hlength := congrArg List.length hbytes
    rwa [blankOutBytes, List.length_mapIdx, length_bytes, length_bytes, byteLength_toList,
      byteLength_toList] at hlength
  have hparser (calls : StatementCalls) :
      Parser.ofSource calls (withoutComments source) = Parser.ofSource calls source := by
    rw [Parser.ofSource, Parser.ofSource, hsize, hsignificant]
  refine ⟨?_, hsignificant, ?_, fun calls => ⟨hparser calls, ?_⟩⟩
  · rw [toList_toUTF8, toList_toUTF8, hbytes, blankOutBytes]
    simp only [Nat.zero_add]
  · rw [← errors_significant, hsignificant, errors_significant]
  · rw [parse, parse, hparser]

/-- The bracket does not touch the variable, with the comment or without it. -/
example : withoutComments "$a/*é'*/[0] # \"" = "$a       [0]    " := by decide

end Token

end CallGrammar
