import CallGrammar.Proofs.Diagnostics

/-!
# CallGrammar.Proofs.Labels

Where the label of a report stands.  An error has its place in bytes, and the label takes
the numbers for offsets of characters.  So the label is under the error, and the report
names its line and column, exactly when all characters up to the end of the error take one
byte each.
-/

namespace CallGrammar

/-! ## lines -/

namespace Text

/-- The lines of a text are all of it. -/
theorem flatten_splitLines (cs : List Char) : (splitLines cs).flatten = cs := by
  induction cs using splitLines.induct with
  | case1 => rfl
  | case2 cs ih => rw [splitLines, List.flatten_cons, ih]; rfl
  | case3 c cs hnot hbreak ih =>
    rw [splitLines, if_pos hbreak, List.flatten_cons, ih]
    · rfl
    · exact hnot
  | case4 c cs hnot hbreak hnil ih =>
    rw [hnil] at ih
    rw [splitLines, if_neg hbreak, hnil, ← ih]
    · rfl
    · exact hnot
  | case5 c cs hnot hbreak line lines hcons ih =>
    rw [hcons] at ih
    rw [splitLines, if_neg hbreak, hcons, ← ih]
    · rfl
    · exact hnot

theorem ne_nil_of_mem_splitLines {cs line : List Char} (h : line ∈ splitLines cs) : line ≠ [] := by
  induction cs using splitLines.induct with
  | case1 => cases h
  | case2 cs ih =>
    rw [splitLines] at h
    obtain rfl | h := List.mem_cons.1 h
    · exact List.cons_ne_nil _ _
    · exact ih h
  | case3 c cs hnot hbreak ih =>
    rw [splitLines.eq_3 c cs hnot, if_pos hbreak] at h
    obtain rfl | h := List.mem_cons.1 h
    · exact List.cons_ne_nil _ _
    · exact ih h
  | case4 c cs hnot hbreak hnil ih =>
    rw [splitLines.eq_3 c cs hnot, if_neg hbreak, hnil] at h
    rw [List.mem_singleton.1 h]
    exact List.cons_ne_nil _ _
  | case5 c cs hnot hbreak first lines hcons ih =>
    rw [splitLines.eq_3 c cs hnot, if_neg hbreak, hcons] at h
    obtain rfl | h := List.mem_cons.1 h
    · exact List.cons_ne_nil _ _
    · exact ih (hcons ▸ List.mem_cons_of_mem first h)

/-- The character behind `front` is in this line and this column of the text, both counted
from one. -/
def Stands (cs front : List Char) (line column : Nat) : Prop :=
  ∃ above before c after below, splitLines cs = above ++ (before ++ c :: after) :: below ∧
    front = above.flatten ++ before ∧ line = above.length + 1 ∧ column = before.length + 1

/-- Each character is in some line and column. -/
theorem exists_stands {cs front rest : List Char} (h : cs = front ++ rest) (hrest : rest ≠ []) :
    ∃ line column, Stands cs front line column := by
  obtain ⟨c, back, rfl⟩ := List.exists_cons_of_ne_nil hrest
  have hflat : (splitLines cs).flatten = front ++ c :: back := (flatten_splitLines cs).trans h
  obtain ⟨above, rest, hlines, rfl, hrest⟩ | ⟨above, before, d, after, below, hlines, rfl, -⟩ :=
    List.flatten_eq_append_iff.1 hflat
  · obtain ⟨empty, after, below, rfl, hempty, -⟩ := List.flatten_eq_cons_iff.1 hrest.symm
    -- no line is empty, so the character begins the next one
    have hnone : empty = [] := by
      refine List.eq_nil_iff_forall_not_mem.2 fun line hline => ?_
      have hmem : line ∈ splitLines cs := by
        rw [hlines]
        simp [hline]
      exact ne_nil_of_mem_splitLines hmem (hempty line hline)
    subst hnone
    exact ⟨_, _, above, [], c, after, below, hlines, (List.append_nil _).symm, rfl, rfl⟩
  · exact ⟨_, _, above, before, d, after, below, hlines, rfl, rfl, rfl⟩

namespace Line

/-- The lines behind others are numbered from where those end. -/
theorem number_append (index offset : Nat) (xss yss : List (List Char)) :
    number index offset (xss ++ yss) = number index offset xss
      ++ number (index + xss.length) (offset + xss.flatten.length) yss := by
  induction xss generalizing index offset with
  | nil => rfl
  | cons xs xss ih =>
    rw [List.cons_append, number, ih, number, List.flatten_cons, List.length_append,
      List.length_cons, List.cons_append, Nat.add_right_comm index, Nat.add_assoc index,
      Nat.add_assoc offset]

/-- A line begins behind all lines before it. -/
theorem bounds_of_mem_number {index offset : Nat} {xss : List (List Char)} {l : Line}
    (h : l ∈ number index offset xss) :
    offset ≤ l.offset ∧ l.stop ≤ offset + xss.flatten.length := by
  induction xss generalizing index offset with
  | nil => cases h
  | cons xs xss ih =>
    rw [number] at h
    rw [List.flatten_cons, List.length_append]
    obtain rfl | h := List.mem_cons.1 h
    · exact ⟨Nat.le_refl _, by simp only [stop]; omega⟩
    · obtain ⟨hstart, hstop⟩ := ih h
      exact ⟨by omega, by omega⟩

/-- A line is found by an offset in it, if the others are above and below it. -/
theorem at?_eq_some {upper lower : List Line} {l : Line} {o : Nat}
    (hupper : ∀ l' ∈ upper, l'.offset ≤ o) (hstart : l.offset ≤ o) (hstop : o < l.stop)
    (hlower : ∀ l' ∈ lower, l.stop ≤ l'.offset) : at? (upper ++ l :: lower) o = some l := by
  have hfilter : (upper ++ l :: lower).filter (·.offset ≤ o) = upper ++ [l] := by
    have hall : upper.filter (·.offset ≤ o) = upper :=
      List.filter_eq_self.2 fun l' hl' => decide_eq_true (hupper l' hl')
    have hnone : lower.filter (·.offset ≤ o) = [] := by
      refine List.filter_eq_nil_iff.2 fun l' hl' hle => ?_
      have hge := hlower l' hl'
      have hle : l'.offset ≤ o := of_decide_eq_true hle
      omega
    rw [List.filter_append, hall, List.filter_cons, if_pos (decide_eq_true hstart), hnone]
  obtain ⟨last, hlast, hle⟩ : ∃ last, (upper ++ l :: lower).getLast? = some last ∧
      o ≤ last.stop := by
    have hsome : (l :: lower).getLast? ≠ none := by simp
    obtain ⟨last, hlast⟩ := Option.ne_none_iff_exists'.1 hsome
    refine ⟨last, by rw [List.getLast?_append, hlast]; rfl, ?_⟩
    obtain rfl | hmem := List.mem_cons.1 (List.mem_of_getLast? hlast)
    · exact Nat.le_of_lt hstop
    · have hge := hlower last hmem
      have hnonneg : last.offset ≤ last.stop := Nat.le_add_right _ _
      omega
  rw [at?, hlast, hfilter]
  simp [Nat.not_lt.2 hle]

/-- The line of a character is found by the number of characters before it. -/
theorem at?_ofText {cs before after : List Char} {c : Char} {above below : List (List Char)}
    (h : splitLines cs = above ++ (before ++ c :: after) :: below) :
    at? (ofText cs) (above.flatten ++ before).length
      = some ⟨above.length, above.flatten.length, before ++ c :: after⟩ := by
  rw [ofText, h, number_append, number, Nat.zero_add, Nat.zero_add]
  refine at?_eq_some (fun l hl => ?_) ?_ ?_ fun l hl => (bounds_of_mem_number hl).1
  · have hle := (bounds_of_mem_number hl).2
    have hnonneg : l.offset ≤ l.stop := Nat.le_add_right _ _
    rw [List.length_append]
    omega
  · simp
  · simp [stop]

end Line

/-- A line and a column are found by the number of characters before them. -/
theorem Stands.at? {cs front : List Char} {line column : Nat} (h : Stands cs front line column) :
    ∃ l, Line.at? (Line.ofText cs) front.length = some l ∧ line = l.index + 1 ∧
      column = front.length - l.offset + 1 := by
  obtain ⟨above, before, c, after, below, hlines, rfl, rfl, rfl⟩ := h
  exact ⟨_, Line.at?_ofText hlines, rfl, by simp⟩

end Text

/-! ## characters and bytes -/

namespace Token

/-- There are as many bytes as characters where each character takes one. -/
theorem byteLength_eq_length_iff {cs : List Char} :
    byteLength cs = cs.length ↔ ∀ c ∈ cs, c.utf8Size = 1 := by
  have hle (ds : List Char) : ds.length ≤ byteLength ds := by
    induction ds with
    | nil => exact Nat.le_refl _
    | cons d ds ih =>
      have hpos := d.utf8Size_pos
      rw [List.length_cons, byteLength]
      omega
  induction cs with
  | nil => simp [byteLength]
  | cons c cs ih =>
    have hpos := c.utf8Size_pos
    have hrest := hle cs
    rw [List.forall_mem_cons, byteLength, List.length_cons]
    constructor
    · exact fun heq => ⟨by omega, ih.1 (by omega)⟩
    · rintro ⟨hone, hall⟩
      rw [hone, ih.2 hall, Nat.add_comm]

end Token

/-- A place between characters is behind some of them. -/
theorem exists_front_of_isValid {source : String} {n : Nat}
    (h : String.Pos.Raw.IsValid source ⟨n⟩) :
    ∃ front back, source.toList = front ++ back ∧ n = Token.byteLength front := by
  obtain ⟨front, back, rfl, hn⟩ := String.Pos.Raw.isValid_iff_exists_append.1 h
  refine ⟨front.toList, back.toList, String.toList_append, ?_⟩
  rw [Token.byteLength_toList]
  exact congrArg String.Pos.Raw.byteIdx hn

/-- Between two places between characters there are some characters. -/
theorem Span.Within.selects {s : Span} {source : String} (h : s.Within source) :
    s.Selects 0 source.toList := by
  obtain ⟨front, rest, hfront, hstart⟩ := exists_front_of_isValid h.start_valid
  obtain ⟨upto, back, hupto, hstop⟩ := exists_front_of_isValid h.stop_valid
  have hspan : s = ⟨0 + Token.byteLength front, 0 + Token.byteLength upto⟩ := by
    rw [Nat.zero_add, Nat.zero_add, ← hstart, ← hstop]
  obtain ⟨piece, rfl, hrest⟩ | ⟨piece, rfl, hback⟩ :=
    List.append_eq_append_iff.1 (hfront.symm.trans hupto)
  · exact ⟨front, piece, back, hrest ▸ hfront, hspan⟩
  · have hlen : Token.byteLength (upto ++ piece) = Token.byteLength upto := by
      have hle := h.ordered
      rw [hstart, hstop] at hle
      rw [Token.byteLength_append] at hle ⊢
      omega
    refine ⟨upto ++ piece, [], rest, hfront, ?_⟩
    rw [List.append_nil, hspan, hlen]

/-- A refused source is refused at some of its tokens in a row, or at its end. -/
theorem covers_of_parse_error {calls : StatementCalls} {source : String} {e : ParseError Span}
    (h : parse calls source = .error e) :
    e.span = ⟨source.utf8ByteSize, source.utf8ByteSize⟩ ∨
      ∃ us, us <:+: Token.significant (Token.ofText source) ∧ Covers e.span us := by
  have hanswer : ((Parser.ofSource calls source).answer .program).1 = some e :=
    congrArg refusal? h
  have hrefuses := Parser.refuses_answer hanswer
  have htokens := hrefuses.crosses.of_start.1
  have hpoints := hrefuses.refused.points (htokens ▸ Token.sorted_significant source)
  rw [← htokens]
  exact hpoints.covers

/-! ## places -/

namespace Report

open Text

/-- Right below its heading, the report names this line and this column. -/
def Names (report heading filename : String) (line column : Nat) : Prop :=
  ∃ width below, report = heading ++ "\n" ++ (times width ' ' ++ "╭─[" ++ filename ++ ":"
    ++ toString line ++ ":" ++ toString column ++ "]" ++ "\n" ++ below)

/-- A label that begins and ends at characters of the text has a place. -/
theorem body_eq (filename : String) (help : Option String) {lines : List Line} {label : Label}
    {first last : Line} (hfirst : Line.at? lines label.start = some first)
    (hlast : Line.at? lines label.last = some last) :
    ∃ width rows, body filename lines label help
      = (times width ' ' ++ "╭─[" ++ filename ++ ":" ++ toString (first.index + 1) ++ ":"
        ++ toString (label.start - first.offset + 1) ++ "]") :: rows := by
  unfold body
  rw [hfirst, hlast]
  exact ⟨_, _, rfl⟩

/-- The report names the line and column of the character behind `front`, if its label begins
there and ends in the text. -/
theorem names_render {filename source : String} {e : ParseError Span} {front : List Char}
    {line column : Nat} (hstart : (Label.ofError e source).start = front.length)
    (hstands : Stands source.toList front line column)
    (hlast : ∃ last, Line.at? (Line.ofText source.toList) (Label.ofError e source).last
      = some last) :
    Names (render filename source e) ("[" ++ e.code ++ "] Error: " ++ e.message) filename line
      column := by
  obtain ⟨first, hfirst, rfl, rfl⟩ := hstands.at?
  obtain ⟨last, hlast⟩ := hlast
  rw [← hstart] at hfirst ⊢
  obtain ⟨width, rows, hbody⟩ := body_eq filename e.help hfirst hlast
  refine ⟨width, String.join (rows.map (· ++ "\n")), ?_⟩
  rw [render, hbody]
  simp only [List.map_cons, String.join_cons]

/-- The report of a label that covers `piece` names the line and column of its first
character. -/
theorem exists_names {source : String} {e : ParseError Span} {front piece back : List Char}
    (hsource : source.toList = front ++ (piece ++ back)) (hne : piece ≠ [])
    (hstart : (Label.ofError e source).start = front.length)
    (hstop : (Label.ofError e source).stop = (front ++ piece).length) (filename : String) :
    ∃ line column, Stands source.toList front line column ∧
      Names (render filename source e) ("[" ++ e.code ++ "] Error: " ++ e.message) filename line
        column := by
  obtain rfl | ⟨init, last, rfl⟩ := List.eq_nil_or_concat' piece
  · exact absurd rfl hne
  · have hinit : source.toList = (front ++ init) ++ (last :: back) := by
      rw [hsource]
      simp
    have hlast : (Label.ofError e source).last = (front ++ init).length := by
      rw [Label.last, hstart, hstop]
      simp
    obtain ⟨line, column, hstands⟩ := exists_stands hsource (by simp)
    obtain ⟨_, _, hlaststands⟩ := exists_stands hinit (List.cons_ne_nil last back)
    obtain ⟨l, hl, -⟩ := hlaststands.at?
    exact ⟨line, column, hstands, names_render hstart hstands ⟨l, hlast ▸ hl⟩⟩

end Report

/-- **Reports**: the label covers the characters of an error, and the report names the line
and the column of the first one, exactly when the characters up to the end of the error take
one byte each. -/
theorem labels_iff_of_parse {calls : StatementCalls} {source : String} {e : ParseError Span}
    (h : parse calls source = .error e) (hnonempty : e.span.isEmpty = false) (filename : String) :
    ∃ front piece back, source.toList = front ++ (piece ++ back) ∧
      e.span = ⟨Token.byteLength front, Token.byteLength (front ++ piece)⟩ ∧
      (Report.labelRange e.span source.utf8ByteSize = (front.length, (front ++ piece).length) ∧
        (∃ line column, Text.Stands source.toList front line column ∧
          Report.Names (Report.render filename source e) ("[" ++ e.code ++ "] Error: " ++ e.message)
            filename line column) ↔
        ∀ c ∈ front ++ piece, c.utf8Size = 1) := by
  have hselects : e.span.Selects 0 source.toList := by
    obtain hend | ⟨us, hus, hcovers⟩ := covers_of_parse_error h
    · rw [hend, Span.isEmpty] at hnonempty
      simp at hnonempty
    · exact (hcovers.within hus).selects
  obtain ⟨front, piece, back, hsource, hspan⟩ := hselects
  rw [Nat.zero_add, Nat.zero_add] at hspan
  have hrange : Report.labelRange e.span source.utf8ByteSize
      = (Token.byteLength front, Token.byteLength (front ++ piece)) := by
    rw [Report.labelRange, hnonempty, hspan]
    rfl
  refine ⟨front, piece, back, hsource, hspan, ?_⟩
  rw [hrange, ← Token.byteLength_eq_length_iff]
  constructor
  · rintro ⟨heq, -⟩
    exact (Prod.mk.inj heq).2
  · intro hlen
    have hfront : Token.byteLength front = front.length := by
      rw [Token.byteLength_eq_length_iff] at hlen ⊢
      exact fun c hc => hlen c (List.mem_append_left piece hc)
    have hne : piece ≠ [] := by
      rintro rfl
      rw [hspan, List.append_nil, Span.isEmpty] at hnonempty
      simp at hnonempty
    refine ⟨by rw [hfront, hlen], Report.exists_names hsource hne ?_ ?_ filename⟩
    · exact (congrArg Prod.fst hrange).trans hfront
    · exact (congrArg Prod.snd hrange).trans hlen

/-- A comma that nothing comes before, in the second line. -/
theorem labels_iff_of_parse_comma : ∃ e front piece back,
    parse .default "foo\n , bar" = .error e ∧ e.span.isEmpty = false ∧
    "foo\n , bar".toList = front ++ (piece ++ back) ∧
    Report.labelRange e.span "foo\n , bar".utf8ByteSize
      = (front.length, (front ++ piece).length) ∧
    ∃ line column, Text.Stands "foo\n , bar".toList front line column ∧
      Report.Names (Report.render "a.egram" "foo\n , bar" e)
        ("[" ++ e.code ++ "] Error: " ++ e.message) "a.egram" line column := by
  have hrefusal : refusal? (parse .default "foo\n , bar") = some (.strayComma ⟨5, 6⟩) := by
    decide +kernel
  cases hp : parse .default "foo\n , bar" with
  | ok p =>
    rw [hp] at hrefusal
    cases hrefusal
  | error e =>
    rw [hp] at hrefusal
    obtain rfl : e = .strayComma ⟨5, 6⟩ := Option.some.inj hrefusal
    obtain ⟨front, piece, back, hsource, -, hiff⟩ := labels_iff_of_parse hp rfl "a.egram"
    have hascii : "foo\n , bar".toList.all (·.utf8Size == 1) = true := by decide
    have hpiece : ∀ c ∈ front ++ piece, c.utf8Size = 1 := by
      intro c hc
      rw [hsource, ← List.append_assoc, List.all_append, Bool.and_eq_true] at hascii
      simpa using List.all_eq_true.1 hascii.1 c hc
    obtain ⟨hrange, hplace⟩ := hiff.2 hpiece
    exact ⟨_, front, piece, back, rfl, rfl, hsource, hrange, hplace⟩

/-- Behind a letter of two bytes the label of a comma is not under it. -/
theorem labelRange_ne_accent : ∃ e front piece back,
    parse .default "'é'," = .error e ∧ e.span.isEmpty = false ∧
    "'é',".toList = front ++ (piece ++ back) ∧
    e.span = ⟨Token.byteLength front, Token.byteLength (front ++ piece)⟩ ∧
    Report.labelRange e.span "'é',".utf8ByteSize ≠ (front.length, (front ++ piece).length) := by
  have hrefusal : refusal? (parse .default "'é',") = some (.strayComma ⟨4, 5⟩) := by
    decide +kernel
  cases hp : parse .default "'é'," with
  | ok p =>
    rw [hp] at hrefusal
    cases hrefusal
  | error e =>
    rw [hp] at hrefusal
    obtain rfl : e = .strayComma ⟨4, 5⟩ := Option.some.inj hrefusal
    exact ⟨_, ['\'', 'é', '\''], [','], [], rfl, rfl, by decide, by decide, by decide⟩

end CallGrammar
