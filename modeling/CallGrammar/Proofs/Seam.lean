import CallGrammar.Proofs.Spelling

/-!
# CallGrammar.Proofs.Seam

A text without faults, then a line break, then another text: the tokens are those of the
first text, the line break, and those of the other text, moved.

Only strings and bracketed comments may go on over a line break.  A text that ends in an
open one has a fault there: what has stayed open up to the end was closed nowhere, so no
rule for a whole string or comment matches.
-/

namespace CallGrammar

/-! ## patterns that stay open -/

namespace Pattern

variable {p q : Pattern} {d : Char}

/-- A pattern of no text goes on with nothing. -/
theorem opensWith_derivatives_of_isEmpty (h : p.isEmpty = true) (w : List Char) :
    (p.derivatives w).opensWith d = false := by
  induction w generalizing p with
  | nil => exact opensWith_of_isEmpty d h
  | cons c w ih =>
    have hnever : p.derivative c = never := derivative_eq_never (opensWith_of_isEmpty c h)
    have hempty : (p.derivative c).isEmpty = true := by rw [hnever]; rfl
    exact ih hempty

theorem opensWith_derivatives_of_opensWith {c : Char} (h : p.opensWith c = false)
    (w : List Char) : (p.derivatives (c :: w)).opensWith d = false := by
  have hnever : (p.derivative c).isEmpty = true := by rw [derivative_eq_never h]; rfl
  exact opensWith_derivatives_of_isEmpty hnever w

/-- Two patterns that are read side by side, and of which the first is not matched as
long as they go on: where one of them goes on from the end of a text, the first has
matched nothing in it. -/
theorem over_or_unmatched {Open : Pattern → Pattern → Prop}
    (hopen : ∀ p q, Open p q → p.nullable = false ∧ ∀ c,
      Open (p.derivative c) (q.derivative c) ∨
        (p.derivative c).isEmpty = true ∧ (q.derivative c).isEmpty = true)
    (h : Open p q) (cs : List Char) :
    ((p.derivatives cs).opensWith d = false ∧ (q.derivatives cs).opensWith d = false) ∨
      p.longest cs = none := by
  induction cs generalizing p q with
  | nil => exact .inr (by simp [longest, (hopen p q h).1])
  | cons c cs ih =>
    obtain ⟨hnull, hstep⟩ := hopen p q h
    obtain hstep | ⟨hp, hq⟩ := hstep c
    · obtain hover | hnone := ih hstep
      · exact .inl hover
      · exact .inr (by simp [longest_cons, hnone, hnull])
    · exact .inl ⟨opensWith_derivatives_of_isEmpty hp cs, opensWith_derivatives_of_isEmpty hq cs⟩

end Pattern

/-! ## strings -/

namespace Quoted

open Pattern

/-- What may stand between two quotes. -/
def within (quote : Char) : Pattern :=
  .star (.alt (.one fun c => c != quote && c != '\\') (.seq (.char '\\') (.one (· != '\n'))))

/-- The same after a backslash. -/
def escaped (quote : Char) : Pattern := .seq (.one (· != '\n')) (within quote)

variable {quote c : Char}

/-- The quote ends a string. -/
theorem derivative_within_quote (hquote : quote ≠ '\\') :
    (within quote).derivative quote = .never := by
  simp [within, Pattern.derivative, Pattern.char, Pattern.nullable, followedBy, Pattern.or, hquote]

/-- A backslash escapes the next character. -/
theorem derivative_within_slash : (within quote).derivative '\\' = escaped quote := by
  simp [within, escaped, Pattern.derivative, Pattern.char, Pattern.nullable, followedBy,
    Pattern.or]

/-- Any other character is in the string. -/
theorem derivative_within_plain (hc : c ≠ quote) (hslash : c ≠ '\\') :
    (within quote).derivative c = within quote := by
  simp [within, Pattern.derivative, Pattern.char, Pattern.nullable, followedBy, Pattern.or, hc,
    hslash]

theorem derivative_escaped_newline : (escaped quote).derivative '\n' = .never := by
  simp [escaped, within, Pattern.derivative, Pattern.nullable, followedBy]

/-- An escaped character is in the string, if it is no line break. -/
theorem derivative_escaped (hc : c ≠ '\n') : (escaped quote).derivative c = within quote := by
  simp [escaped, within, Pattern.derivative, Pattern.nullable, followedBy, hc]

/-- A closed and an open string that have been read up to a place between the quotes. -/
inductive Open (quote : Char) : Pattern → Pattern → Prop where
  | within : Open quote (.seq (within quote) (.char quote)) (within quote)
  | escaped : Open quote (.seq (escaped quote) (.char quote)) (escaped quote)

/-- A string or comment that is open stays open, or nothing goes on with it. -/
theorem Open.step (hquote : quote ≠ '\\') {p q : Pattern} (h : Open quote p q) :
    p.nullable = false ∧ ∀ c, Open quote (p.derivative c) (q.derivative c) ∨
      (p.derivative c).isEmpty = true ∧ (q.derivative c).isEmpty = true := by
  cases h with
  | within =>
    have hderivative (c : Char) : (Pattern.seq (Quoted.within quote) (.char quote)).derivative c
        = (((Quoted.within quote).derivative c).followedBy (.char quote)).or
          ((Pattern.char quote).derivative c) := rfl
    refine ⟨by simp [Pattern.nullable, Pattern.char], fun c => ?_⟩
    rw [hderivative]
    by_cases hc : c = quote
    · rw [hc, derivative_within_quote hquote]
      exact .inr ⟨by simp [Pattern.char, Pattern.derivative, followedBy, Pattern.or, isEmpty], rfl⟩
    · have hchar : (Pattern.char quote).derivative c = .never := by
        simp [Pattern.char, Pattern.derivative, hc]
      by_cases hslash : c = '\\'
      · rw [hchar, hslash, derivative_within_slash]
        exact .inl .escaped
      · rw [hchar, derivative_within_plain hc hslash]
        exact .inl .within
  | escaped =>
    have hderivative (c : Char) : (Pattern.seq (Quoted.escaped quote) (.char quote)).derivative c
        = ((Quoted.escaped quote).derivative c).followedBy (.char quote) := rfl
    refine ⟨by simp [Pattern.nullable, Pattern.char, Quoted.escaped], fun c => ?_⟩
    rw [hderivative]
    by_cases hc : c = '\n'
    · rw [hc, derivative_escaped_newline]
      exact .inr ⟨rfl, rfl⟩
    · rw [derivative_escaped hc]
      exact .inl .within

/-- Where a string goes on after a text that begins with its quote, the text holds no
whole string. -/
theorem over_or_unclosed (hquote : quote ≠ '\\') (cs : List Char) (d : Char) :
    (((Rule.closedString quote).derivatives (quote :: cs)).opensWith d = false ∧
      ((Rule.openString quote).derivatives (quote :: cs)).opensWith d = false) ∨
    (Rule.closedString quote).longest (quote :: cs) = none := by
  have hclosed : (Rule.closedString quote).derivative quote
      = .seq (within quote) (.char quote) := by
    simp [Rule.closedString, Rule.openString, within, Pattern.derivative, Pattern.char,
      Pattern.nullable, followedBy, Pattern.or]
  have hopen : (Rule.openString quote).derivative quote = within quote := by
    simp [Rule.openString, within, Pattern.derivative, Pattern.char, Pattern.nullable, followedBy,
      Pattern.or]
  have hnull : (Rule.closedString quote).nullable = false := rfl
  rw [derivatives, derivatives, List.foldl_cons, List.foldl_cons, longest_cons, hclosed, hopen,
    hnull]
  obtain hover | hnone := over_or_unmatched (d := d) (fun _ _ h => Open.step hquote h)
    (.within : Open quote _ _) cs
  · exact .inl hover
  · exact .inr (by rw [hnone]; rfl)

end Quoted

/-! ## bracketed comments -/

namespace Comment

open Pattern

def stars : Pattern := .star (.char '*')

/-- What may stand between the brackets. -/
def body : Pattern :=
  .star (.alt (.one (· != '*'))
    (.seq (.seq (.char '*') stars) (.one fun c => c != '*' && c != '/')))

/-- The closing slash. -/
def slash : Pattern := .seq (.char '/') .nothing

def closer : Pattern := .seq (.seq (.char '*') stars) slash

/-- The rule for a whole comment, between its brackets. -/
def inside : Pattern := .seq body closer

/-- The same after stars. -/
def starred : Pattern :=
  .alt (.seq (.seq (.seq stars (.one fun c => c != '*' && c != '/')) body) closer)
    (.seq stars slash)

inductive Open : Pattern → Pattern → Prop where
  | plain : Open inside inside
  | star : Open starred starred

theorem Open.step {p q : Pattern} (h : Open p q) :
    p.nullable = false ∧ ∀ c, Open (p.derivative c) (q.derivative c) ∨
      (p.derivative c).isEmpty = true ∧ (q.derivative c).isEmpty = true := by
  cases h with
  | plain =>
    refine ⟨rfl, fun c => ?_⟩
    by_cases hstar : c = '*'
    · have hnext : inside.derivative c = starred := by rw [hstar]; rfl
      exact .inl (by rw [hnext]; exact .star)
    · have hnext : inside.derivative c = inside := by
        simp [inside, body, closer, slash, stars, Pattern.derivative, Pattern.char,
          Pattern.nullable, followedBy, Pattern.or, hstar]
      exact .inl (by rw [hnext]; exact .plain)
  | star =>
    refine ⟨rfl, fun c => ?_⟩
    by_cases hstar : c = '*'
    · have hnext : starred.derivative c = starred := by rw [hstar]; rfl
      exact .inl (by rw [hnext]; exact .star)
    · by_cases hslash : c = '/'
      · rw [hslash]
        exact .inr ⟨rfl, rfl⟩
      · have hnext : starred.derivative c = inside := by
          simp [starred, inside, body, closer, slash, stars, Pattern.derivative, Pattern.char,
            Pattern.nullable, followedBy, Pattern.or, hstar, hslash]
        exact .inl (by rw [hnext]; exact .plain)

/-- Where a comment goes on after a text that begins with its opener, the text holds no
whole comment. -/
theorem over_or_unclosed (cs : List Char) (d : Char) :
    (Rule.blockComment.derivatives ('/' :: '*' :: cs)).opensWith d = false ∨
      Rule.blockComment.longest ('/' :: '*' :: cs) = none := by
  have hinside : (Rule.blockComment.derivative '/').derivative '*' = inside := rfl
  have hnull : Rule.blockComment.nullable = false ∧
      (Rule.blockComment.derivative '/').nullable = false := ⟨rfl, rfl⟩
  rw [derivatives, List.foldl_cons, List.foldl_cons, longest_cons, longest_cons, hinside,
    hnull.1, hnull.2]
  obtain ⟨hover, -⟩ | hnone := over_or_unmatched (d := d) (fun _ _ h => Open.step h) Open.plain cs
  · exact .inl hover
  · exact .inr (by rw [hnone]; rfl)

end Comment

/-! ## what is open is a fault -/

theorem Pattern.longest_nothing (cs : List Char) : nothing.longest cs = some 0 := by
  cases cs with
  | nil => rfl
  | cons c cs =>
    rw [longest_cons, derivative, longest_never]
    rfl

namespace Rule

/-- A rule that takes nothing is not the best. -/
theorem best_cons_of_none {r : Rule} {rs : List Rule} {cs : List Char} (h : r.reach cs = none) :
    best (r :: rs) cs = best rs cs := by
  rw [best, h]

theorem reach_of_none {r : Rule} {cs : List Char} (h : r.pattern.longest cs = none) :
    r.reach cs = none := by
  rw [reach, h]

/-- The rules that may begin with a double quote. -/
theorem filter_table_doubleQuote :
    table.filter (·.pattern.opensWith '"') =
      [⟨closedString '"', none, fun cs => some (.doubleQuoted (Quoted.value '"' cs))⟩,
        ⟨openString '"', none, fun _ => some (.invalid .unterminatedString)⟩] := rfl

/-- The rules that may begin with a slash. -/
theorem filter_table_slash :
    table.filter (·.pattern.opensWith '/') =
      [symbol .slash,
        ⟨blockComment, none, fun cs =>
          some (.blockComment (String.ofList ((cs.drop 2).dropLast.dropLast)))⟩,
        ⟨Pattern.text "/*", none, fun _ => some (.invalid .unterminatedComment)⟩] := rfl

/-- The rules that a line break has a part in. -/
theorem filter_table_newline :
    table.filter (·.pattern.mentions '\n') =
      [⟨closedString '\'', none, fun cs => some (.singleQuoted (Quoted.value '\'' cs))⟩,
        ⟨closedString '"', none, fun cs => some (.doubleQuoted (Quoted.value '"' cs))⟩,
        ⟨blockComment, none, fun cs =>
          some (.blockComment (String.ofList ((cs.drop 2).dropLast.dropLast)))⟩,
        ⟨Pattern.char '\n', none, fun _ => some .newline⟩,
        ⟨openString '\'', none, fun _ => some (.invalid .unterminatedString)⟩,
        ⟨openString '"', none, fun _ => some (.invalid .unterminatedString)⟩] := rfl

end Rule

namespace Token

variable {c quote : Char} {cs : List Char}

/-- The text begins with a fault. -/
def Faulty (c : Char) (cs : List Char) : Prop :=
  ∃ fault n, firstPiece c cs = (some (.invalid fault), n)

theorem faulty_of_best
    (h : Rule.best Rule.table (c :: cs) = Rule.best
      [⟨Rule.openString c, none, fun _ => some (.invalid .unterminatedString)⟩] (c :: cs)) :
    Faulty c cs := by
  unfold Faulty firstPiece
  rw [h, Rule.best, Rule.best]
  cases Rule.reach ⟨Rule.openString c, none, fun _ => some (.invalid .unterminatedString)⟩
    (c :: cs) with
  | none => exact ⟨_, _, rfl⟩
  | some n => exact ⟨_, _, rfl⟩

/-- A quote that no string begins with is a fault. -/
theorem faulty_of_string (hquote : quote = '\'' ∨ quote = '"')
    (h : (Rule.closedString quote).longest (quote :: cs) = none) : Faulty quote cs := by
  apply faulty_of_best
  rw [Rule.best_filter Rule.nullable_of_mem_table]
  obtain rfl | rfl := hquote
  · rw [Rule.filter_table_quote, Rule.best_cons_of_none (Rule.reach_of_none h)]
  · rw [Rule.filter_table_doubleQuote, Rule.best_cons_of_none (Rule.reach_of_none h)]

/-- A comment that is not closed is a fault. -/
theorem faulty_of_comment (h : Rule.blockComment.longest ('/' :: '*' :: cs) = none) :
    Faulty '/' ('*' :: cs) := by
  have hslash : (Rule.symbol .slash).reach ('/' :: '*' :: cs) = some 1 := by
    have hlongest : (Rule.symbol .slash).pattern.longest ('/' :: '*' :: cs) = some 1 := by
      have hnext : (Rule.symbol .slash).pattern.derivative '/' = .nothing := rfl
      rw [Pattern.longest_cons, hnext, Pattern.longest_nothing]
    rw [Rule.reach, hlongest]
    rfl
  have hopener : Rule.reach ⟨Pattern.text "/*", none,
      fun _ => some (.invalid .unterminatedComment)⟩ ('/' :: '*' :: cs) = some 2 := by
    have hlongest : (Pattern.text "/*").longest ('/' :: '*' :: cs) = some 2 := by
      have hnext : ((Pattern.text "/*").derivative '/').derivative '*' = .nothing := rfl
      rw [Pattern.longest_cons, Pattern.longest_cons, hnext, Pattern.longest_nothing]
    rw [Rule.reach, hlongest]
    rfl
  unfold Faulty firstPiece
  rw [Rule.best_filter Rule.nullable_of_mem_table, Rule.filter_table_slash, Rule.best, hslash,
    Rule.best_cons_of_none (Rule.reach_of_none h), Rule.best, hopener, Rule.best]
  exact ⟨_, _, rfl⟩

/-- A string that is closed does not go on over a line break. -/
theorem string_over (hquote : quote = '\'' ∨ quote = '"') (h : ¬ Faulty c cs) :
    ((Rule.closedString quote).derivatives (c :: cs)).opensWith '\n' = false ∧
      ((Rule.openString quote).derivatives (c :: cs)).opensWith '\n' = false := by
  by_cases hc : c = quote
  · subst hc
    have hslash : c ≠ '\\' := by obtain rfl | rfl := hquote <;> decide
    obtain hover | hnone := Quoted.over_or_unclosed hslash cs '\n'
    · exact hover
    · exact absurd (faulty_of_string hquote hnone) h
  · have hclosed : (Rule.closedString quote).opensWith c = false := by
      simp [Rule.closedString, Rule.openString, Pattern.opensWith, Pattern.char, Pattern.nullable,
        Pattern.followedBy, Pattern.or, hc]
    have hopen : (Rule.openString quote).opensWith c = false := by
      simp [Rule.openString, Pattern.opensWith, Pattern.char, Pattern.nullable,
        Pattern.followedBy, Pattern.or, hc]
    exact ⟨Pattern.opensWith_derivatives_of_opensWith hclosed cs,
      Pattern.opensWith_derivatives_of_opensWith hopen cs⟩

/-- A comment that is closed does not go on over a line break. -/
theorem comment_over (h : ¬ Faulty c cs) :
    (Rule.blockComment.derivatives (c :: cs)).opensWith '\n' = false := by
  by_cases hslash : c = '/'
  · subst hslash
    cases cs with
    | nil => rfl
    | cons d cs =>
      by_cases hstar : d = '*'
      · subst hstar
        obtain hover | hnone := Comment.over_or_unclosed cs '\n'
        · exact hover
        · exact absurd (faulty_of_comment hnone) h
      · have hnext : (Rule.blockComment.derivative '/').opensWith d = false := by
          change (((d == '*') || false) || false) = false
          simpa using hstar
        exact Pattern.opensWith_derivatives_of_opensWith hnext cs
  · have hfirst : Rule.blockComment.opensWith c = false := by
      change (((c == '/') || false) || false) = false
      simpa using hslash
    exact Pattern.opensWith_derivatives_of_opensWith hfirst cs

/-- A piece without a fault ends before a line break that follows the text. -/
theorem stops_newline (h : ¬ Faulty c cs) : Rule.stops (c :: cs) '\n' = true := by
  apply List.all_eq_true.2
  intro r hr
  have hbefore : r.notBefore ≠ some '\n' := by
    have hall : Rule.table.all (fun r => r.notBefore != some '\n') = true := by decide
    simpa using List.all_eq_true.1 hall r hr
  suffices hopens : (r.pattern.derivatives (c :: cs)).opensWith '\n' = false by
    simp [hopens, hbefore]
  by_cases hmentions : r.pattern.mentions '\n' = true
  · have hmem : r ∈ Rule.table.filter (·.pattern.mentions '\n') :=
      List.mem_filter.2 ⟨hr, hmentions⟩
    rw [Rule.filter_table_newline] at hmem
    simp only [List.mem_cons, List.not_mem_nil, or_false] at hmem
    obtain rfl | rfl | rfl | rfl | rfl | rfl := hmem
    · exact (string_over (.inl rfl) h).1
    · exact (string_over (.inr rfl) h).1
    · exact comment_over h
    · have hnext : ((Pattern.char '\n').derivative c).isEmpty = true := by
        unfold Pattern.char Pattern.derivative
        split <;> rfl
      exact Pattern.opensWith_derivatives_of_isEmpty hnext cs
    · exact (string_over (.inl rfl) h).2
    · exact (string_over (.inr rfl) h).2
  · exact Pattern.opensWith_of_mentions
      (Pattern.mentions_derivatives (c :: cs) (by simpa using hmentions))

/-! ## scanning by pieces -/

section

variable {n offset : Nat} {touchable : Bool} {kind : Kind}

theorem scan_skip (skip offset : Nat) (touchable : Bool) (c : Char) (cs : List Char) :
    scan (skip + 1) offset touchable (c :: cs) = scan skip (offset + c.utf8Size) touchable cs := rfl

/-- A blank is skipped, and the next token touches nothing. -/
theorem scan_blank (h : firstPiece c cs = (none, n)) :
    scan 0 offset touchable (c :: cs) = scan (n - 1) (offset + c.utf8Size) false cs := by
  rw [scan, h]

/-- A token is cut off, and its kind tells whether the next one may touch it. -/
theorem scan_token (h : firstPiece c cs = (some kind, n)) :
    scan 0 offset touchable (c :: cs)
      = ⟨kind, ⟨offset, offset + byteLength ((c :: cs).take n)⟩, touchable⟩
        :: scan (n - 1) (offset + c.utf8Size) kind.canBeTouched cs := by
  rw [scan, h]

end

theorem firstPiece_le (c : Char) (cs : List Char) : (firstPiece c cs).2 ≤ cs.length + 1 := by
  unfold firstPiece
  split
  · next rule n hbest =>
    exact Pattern.longest_le (Rule.longest_of_reach (Rule.mem_of_best hbest).2)
  · exact Nat.le_add_left 1 cs.length

/-- The tokens of a text are the same further on. -/
theorem scan_shift (n skip offset : Nat) (touchable : Bool) (cs : List Char) :
    scan skip (offset + n) touchable cs
      = (scan skip offset touchable cs).map (Token.map (Span.shift n)) := by
  induction cs generalizing skip offset touchable with
  | nil => rfl
  | cons c cs ih =>
    cases skip with
    | succ skip => rw [scan_skip, scan_skip, Nat.add_right_comm, ih]
    | zero =>
      cases hpiece : firstPiece c cs with
      | mk found m =>
        cases found with
        | none => rw [scan_blank hpiece, scan_blank hpiece, Nat.add_right_comm, ih]
        | some kind =>
          rw [scan_token hpiece, scan_token hpiece, Nat.add_right_comm offset n,
            Nat.add_right_comm offset n, ih]
          rfl

/-! ## the tokens on both sides -/

/-- From where the scan stands, no piece is read on into the text `rest` after it. -/
def Apart (rest : List Char) : Nat → List Char → Prop
  | _, [] => True
  | skip + 1, _ :: cs => Apart rest skip cs
  | 0, c :: cs =>
    firstPiece c (cs ++ rest) = firstPiece c cs ∧ Apart rest ((firstPiece c cs).2 - 1) cs

/-- The tokens of two texts that stay apart are those of the one, then those of the
other. -/
theorem scan_append_of_apart {rest : List Char} {skip : Nat} {cs : List Char}
    (h : Apart rest skip cs) (hskip : skip ≤ cs.length) (offset : Nat) (touchable : Bool) :
    ∃ touchable', scan skip offset touchable (cs ++ rest)
      = scan skip offset touchable cs ++ scan 0 (offset + byteLength cs) touchable' rest := by
  induction cs generalizing skip offset touchable with
  | nil =>
    obtain rfl : skip = 0 := Nat.le_zero.1 hskip
    exact ⟨touchable, rfl⟩
  | cons c cs ih =>
    have hlength : offset + byteLength (c :: cs) = offset + c.utf8Size + byteLength cs := by
      rw [byteLength, Nat.add_assoc]
    rw [List.cons_append, hlength]
    cases skip with
    | succ skip => exact ih h (Nat.le_of_succ_le_succ hskip) _ _
    | zero =>
      obtain ⟨happend, hrest⟩ := h
      have hle := firstPiece_le c cs
      cases hpiece : firstPiece c cs with
      | mk found n =>
        rw [hpiece] at happend hrest hle
        replace hle : n ≤ cs.length + 1 := hle
        cases found with
        | none =>
          rw [scan_blank hpiece, scan_blank happend]
          exact ih hrest (by omega) _ _
        | some kind =>
          have htake : (c :: (cs ++ rest)).take n = (c :: cs).take n := by
            rw [← List.cons_append, List.take_append_of_le_length (by simpa using hle)]
          obtain ⟨touchable', hscan⟩ :=
            ih hrest (by omega) (offset + c.utf8Size) kind.canBeTouched
          rw [scan_token hpiece, scan_token happend, htake, hscan]
          exact ⟨touchable', rfl⟩

/-- No error is reported if no token is invalid. -/
theorem errors_eq_nil {ts : List (Token Span)} :
    errors ts = [] ↔ ∀ t ∈ ts, ∀ fault, t.kind ≠ .invalid fault := by
  rw [errors, List.filterMap_eq_nil_iff]
  refine forall₂_congr fun t _ => ?_
  unfold LexicalError.ofToken?
  split
  · next fault hk => simp [hk]
  · next hk => exact ⟨fun _ => hk, fun _ => rfl⟩

/-- A text without faults stays apart from a line break. -/
theorem apart_newline {skip offset : Nat} {touchable : Bool} {cs : List Char}
    (h : errors (scan skip offset touchable cs) = []) (rest : List Char) :
    Apart ('\n' :: rest) skip cs := by
  induction cs generalizing skip offset touchable with
  | nil => trivial
  | cons c cs ih =>
    cases skip with
    | succ skip => exact ih (scan_skip skip offset touchable c cs ▸ h)
    | zero =>
      cases hpiece : firstPiece c cs with
      | mk found n =>
        have hstops (hvalid : ∀ fault, found ≠ some (.invalid fault)) :
            firstPiece c (cs ++ '\n' :: rest) = firstPiece c cs := by
          apply firstPiece_append (stops_newline _)
          rintro ⟨fault, m, hfault⟩
          rw [hpiece] at hfault
          exact hvalid fault (congrArg Prod.fst hfault)
        cases found with
        | none =>
          rw [scan_blank hpiece] at h
          exact ⟨hstops nofun, by rw [hpiece]; exact ih h⟩
        | some kind =>
          rw [scan_token hpiece] at h
          have hrest : errors (scan (n - 1) (offset + c.utf8Size) kind.canBeTouched cs) = [] :=
            errors_eq_nil.2 fun t ht => errors_eq_nil.1 h t (List.mem_cons_of_mem _ ht)
          have hvalid := errors_eq_nil.1 h _ List.mem_cons_self
          exact ⟨hstops fun fault hk => hvalid fault (Option.some.inj hk),
            by rw [hpiece]; exact ih hrest⟩

/-- A text of which no rule asks for more stays apart from anything. -/
theorem apart_of_isOver {cs : List Char}
    (h : ∀ w, w ≠ [] → w <:+ cs → Rule.isOver w = true) (rest : List Char) (skip : Nat) :
    Apart rest skip cs := by
  induction cs generalizing skip with
  | nil => trivial
  | cons c cs ih =>
    have hcs := ih fun w hne hw => h w hne (hw.trans (List.suffix_cons c cs))
    cases skip with
    | succ skip => exact hcs skip
    | zero =>
      refine ⟨?_, hcs _⟩
      cases rest with
      | nil => rw [List.append_nil]
      | cons d rest =>
        have hover : Rule.isOver (c :: cs) = true := h _ (List.cons_ne_nil c cs) List.suffix_rfl
        exact firstPiece_append (Rule.stops_of_isOver hover d)

/-- A line break is a piece of its own. -/
theorem firstPiece_newline (cs : List Char) : firstPiece '\n' cs = (some .newline, 1) := by
  cases cs with
  | nil => decide
  | cons d cs =>
    have hover : Rule.isOver ['\n'] = true := by decide
    have happend : firstPiece '\n' ([] ++ d :: cs) = firstPiece '\n' [] :=
      firstPiece_append (Rule.stops_of_isOver hover d)
    rw [List.nil_append] at happend
    rw [happend]
    decide

/-- **Seam**: the tokens of a text without faults, a line break, and another text. -/
theorem ofText_append_newline {source : String} (h : errors (ofText source) = [])
    (rest : String) : ∃ touching, ofText (source ++ "\n" ++ rest) = ofText source
      ++ ⟨.newline, ⟨source.utf8ByteSize, source.utf8ByteSize + 1⟩, touching⟩
      :: (ofText rest).map (Token.map (Span.shift (source.utf8ByteSize + 1))) := by
  have htext : (source ++ "\n" ++ rest).toList = source.toList ++ '\n' :: rest.toList := by
    rw [String.toList_append, String.toList_append, List.append_assoc]
    rfl
  have hshift := scan_shift (source.utf8ByteSize + 1) 0 0 false rest.toList
  rw [Nat.zero_add] at hshift
  have hnewline (touching : Bool) : scan 0 source.utf8ByteSize touching ('\n' :: rest.toList)
      = ⟨.newline, ⟨source.utf8ByteSize, source.utf8ByteSize + 1⟩, touching⟩
        :: (ofText rest).map (Token.map (Span.shift (source.utf8ByteSize + 1))) := by
    rw [ofText, ← hshift]
    exact scan_token (firstPiece_newline _)
  have happart : Apart ('\n' :: rest.toList) 0 source.toList := apart_newline h rest.toList
  obtain ⟨touching, hscan⟩ := scan_append_of_apart happart (Nat.zero_le _) 0 false
  rw [Nat.zero_add, byteLength_toList, ← htext, hnewline] at hscan
  exact ⟨touching, hscan⟩

end Token

end CallGrammar
