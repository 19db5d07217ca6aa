import CallGrammar.Proofs.LongestMatch

/-!
# CallGrammar.Proofs.Strings

What stands between two quotes.  It is a sequence of items: plain characters, and backslashes
with one character behind each.

1. A text is cut into items in one way only (`cut_chars`), whatever follows; so a string ends
   at the first quote that is an item of its own, and no backslash is left alone before it.
2. The value of a string is that of its items, one after the other.
3. Every text is the value of some items: its characters, with a backslash before each
   backslash and quote.
-/

namespace CallGrammar

namespace Quoted

/-! ## items -/

/-- The quotes that strings stand in. -/
inductive Mark where
  | single
  | double

/-- A character, or a backslash and the character behind it. -/
inductive Item where
  | plain (c : Char)
  | escape (c : Char)

namespace Mark

def char : Mark → Char
  | single => '\''
  | double => '"'

/-- The token of a string in these quotes. -/
def kind : Mark → String → Kind
  | single => .singleQuoted
  | double => .doubleQuoted

/-- The characters that a backslash takes for another one, or for themselves. -/
def escapes : Mark → List (Char × Char)
  | single => [('\\', '\\'), ('\'', '\'')]
  | double => [('\\', '\\'), ('"', '"'), ('n', '\n'), ('t', '\t'), ('r', '\r'), ('$', '$')]

end Mark

namespace Item

def chars : Item → List Char
  | plain c => [c]
  | escape c => ['\\', c]

/-- Whether the item may stand between the quotes. -/
def Fits (mark : Mark) : Item → Prop
  | plain c => c ≠ mark.char ∧ c ≠ '\\'
  | escape c => c ≠ '\n'

/-- What the item stands for.  A backslash that makes nothing of its character stays. -/
def value (mark : Mark) : Item → List Char
  | plain c => [c]
  | escape c =>
    match mark.escapes.lookup c with
    | some d => [d]
    | none => ['\\', c]

end Item

/-- The text is that of the items between two quotes. -/
def Mark.Spells (mark : Mark) (items : List Item) (text : List Char) : Prop :=
  (∀ i ∈ items, i.Fits mark) ∧
    text = mark.char :: (items.flatMap Item.chars ++ [mark.char])

/-- A text as items; at its end a backslash may be left alone. -/
def cut : List Char → List Item
  | '\\' :: c :: cs => .escape c :: cut cs
  | c :: cs => .plain c :: cut cs
  | [] => []

section

variable {mark : Mark} {items items' : List Item} {cs text rest : List Char} {c : Char}

theorem Mark.char_ne_slash (mark : Mark) : mark.char ≠ '\\' := by
  cases mark <;> decide

theorem cut_cons (hc : c ≠ '\\') : cut (c :: cs) = .plain c :: cut cs := by
  rw [cut]
  simp [hc]

/-- Items are cut again where they were put together. -/
theorem cut_chars (h : ∀ c, .plain c ∈ items → c ≠ '\\') (rest : List Char) :
    cut (items.flatMap Item.chars ++ rest) = items ++ cut rest := by
  induction items with
  | nil => rfl
  | cons i items ih =>
    have htail := ih fun c hc => h c (List.mem_cons_of_mem i hc)
    cases i with
    | plain c => simpa [Item.chars, cut_cons (h c List.mem_cons_self)] using htail
    | escape c => simpa [Item.chars, cut] using htail

theorem ne_slash_of_fits (h : ∀ i ∈ items, i.Fits mark) (c : Char) (hc : .plain c ∈ items) :
    c ≠ '\\' :=
  (h _ hc).2

/-- No item that fits is a quote. -/
theorem quote_notMem (h : ∀ i ∈ items, i.Fits mark) : .plain mark.char ∉ items :=
  fun hmem => (h _ hmem).1 rfl

/-- The items of a string are read off any text that begins with the string. -/
theorem Mark.Spells.cut_tail (h : mark.Spells items text) (rest : List Char) :
    cut ((text ++ rest).tail) = items ++ .plain mark.char :: cut rest := by
  obtain ⟨hfits, rfl⟩ := h
  have htail : (mark.char :: (items.flatMap Item.chars ++ [mark.char]) ++ rest).tail
      = items.flatMap Item.chars ++ mark.char :: rest := by simp
  rw [htail, cut_chars (ne_slash_of_fits hfits), cut_cons mark.char_ne_slash]

theorem Mark.Spells.unique (h : mark.Spells items text) (h' : mark.Spells items' text) :
    items' = items := by
  have hcut := (h'.cut_tail []).symm.trans (h.cut_tail [])
  exact (List.append_inj' hcut rfl).1

/-- No backslash is left alone before the closing quote. -/
theorem Mark.Spells.ne_lone (h : mark.Spells items text)
    (h' : ∀ c, .plain c ∈ items' → c ≠ '\\') :
    text ≠ mark.char :: (items'.flatMap Item.chars ++ ['\\', mark.char]) := by
  obtain ⟨hfits, rfl⟩ := h
  intro heq
  have hsplit : items'.flatMap Item.chars ++ ['\\', mark.char]
      = items'.flatMap Item.chars ++ ['\\'] ++ [mark.char] := by simp
  rw [hsplit] at heq
  have hinside := (List.append_inj' (List.cons.inj heq).2 rfl).1
  have hcut := cut_chars (ne_slash_of_fits hfits) []
  rw [List.append_nil, hinside, cut_chars h'] at hcut
  have hslash : .plain '\\' ∈ items := by
    rw [← List.append_nil items]
    exact hcut ▸ List.mem_append_right _ List.mem_cons_self
  exact (hfits _ hslash).2 rfl

/-! ## values -/

theorem unescape_eq (mark : Mark) (c : Char) :
    unescape mark.char c = (Item.escape c).value mark := by
  by_cases hc : c ∈ mark.escapes.map Prod.fst
  · cases mark <;> simp only [Mark.escapes, List.map_cons, List.map_nil, List.mem_cons,
      List.not_mem_nil, or_false] at hc
    · obtain rfl | rfl := hc <;> rfl
    · obtain rfl | rfl | rfl | rfl | rfl | rfl := hc <;> rfl
  · have hvalue : (Item.escape c).value mark = ['\\', c] := by
      have hlookup : mark.escapes.lookup c = none := by
        refine List.lookup_eq_none_iff.2 fun p hp => bne_iff_ne.2 ?_
        rintro rfl
        exact hc (List.mem_map_of_mem hp)
      rw [Item.value, hlookup]
    rw [hvalue]
    unfold unescape
    cases mark <;> simp_all [Mark.escapes, Mark.char]

/-- The value of items is the values of each. -/
theorem decode_chars (h : ∀ c, .plain c ∈ items → c ≠ '\\') :
    decode mark.char (items.flatMap Item.chars) = items.flatMap (Item.value mark) := by
  induction items with
  | nil => rfl
  | cons i items ih =>
    have htail := ih fun c hc => h c (List.mem_cons_of_mem i hc)
    cases i with
    | plain c =>
      have hc := h c List.mem_cons_self
      simp [Item.chars, Item.value, decode, hc, htail]
    | escape c =>
      rw [List.flatMap_cons, List.flatMap_cons, ← unescape_eq, ← htail]
      rfl

theorem Mark.Spells.value_eq (h : mark.Spells items text) :
    Quoted.value mark.char text = String.ofList (items.flatMap (Item.value mark)) := by
  obtain ⟨hfits, rfl⟩ := h
  rw [Quoted.value, List.drop_succ_cons, List.drop_zero, List.dropLast_concat,
    decode_chars (ne_slash_of_fits hfits)]

end

/-! ## literals of texts -/

/-- The characters as items, a backslash before each backslash and quote. -/
def Mark.items (mark : Mark) (cs : List Char) : List Item :=
  cs.map fun c => if c = '\\' ∨ c = mark.char then .escape c else .plain c

/-- The text between quotes, a backslash before each backslash and quote in it. -/
def Mark.literal (mark : Mark) (s : String) : List Char :=
  mark.char ::
    (s.toList.flatMap (fun c => if c = '\\' ∨ c = mark.char then ['\\', c] else [c])
      ++ [mark.char])

theorem Mark.spells_literal (mark : Mark) (s : String) :
    mark.Spells (mark.items s.toList) (mark.literal s) := by
  constructor
  · intro i hi
    obtain ⟨c, -, rfl⟩ := List.mem_map.1 hi
    cases mark <;> grind [Item.Fits, Mark.char]
  · rw [literal, items, List.flatMap_map]
    congr 3
    funext c
    split <;> rfl

theorem Mark.value_items (mark : Mark) (s : String) :
    String.ofList ((mark.items s.toList).flatMap (Item.value mark)) = s := by
  have hvalue (c : Char) :
      (if c = '\\' ∨ c = mark.char then Item.escape c else .plain c).value mark = [c] := by
    split
    · next hc =>
      cases mark <;> obtain rfl | rfl := hc <;> rfl
    · rfl
  rw [items, List.flatMap_map]
  simp [hvalue]

/-! ## the patterns of strings -/

section

variable {mark : Mark} {items items' : List Item} {text back : List Char}

/-- What the patterns repeat is an item. -/
theorem mem_language_item : text ∈ (Pattern.or (.one fun c => c != mark.char && c != '\\')
      ((Pattern.char '\\').followedBy (.one (· != '\n')))).language ↔
    ∃ i : Item, i.Fits mark ∧ text = i.chars := by
  simp only [Pattern.language_or, Pattern.mem_language_alt, Pattern.language_followedBy,
    Pattern.mem_language_seq, Pattern.mem_language_char, Pattern.mem_language_one, bne_iff_ne,
    Bool.and_eq_true]
  constructor
  · rintro (⟨c, hc, rfl⟩ | ⟨_, rfl, _, ⟨c, hc, rfl⟩, rfl⟩)
    · exact ⟨.plain c, hc, rfl⟩
    · exact ⟨.escape c, hc, rfl⟩
  · rintro ⟨c | c, hc, rfl⟩
    · exact .inl ⟨c, hc, rfl⟩
    · exact .inr ⟨_, rfl, _, ⟨c, hc, rfl⟩, rfl⟩

theorem exists_items {texts : List (List Char)}
    (h : ∀ w ∈ texts, ∃ i : Item, i.Fits mark ∧ w = i.chars) :
    ∃ items : List Item, (∀ i ∈ items, i.Fits mark) ∧ texts.flatten = items.flatMap Item.chars := by
  induction texts with
  | nil => exact ⟨[], by simp, rfl⟩
  | cons w texts ih =>
    obtain ⟨⟨i, hi, rfl⟩, htexts⟩ := List.forall_mem_cons.1 h
    obtain ⟨items, hitems, heq⟩ := ih htexts
    exact ⟨i :: items, List.forall_mem_cons.2 ⟨hi, hitems⟩, by simp [heq]⟩

theorem mem_language_openString : text ∈ (Rule.openString mark.char).language ↔
    ∃ items : List Item, (∀ i ∈ items, i.Fits mark) ∧
      text = mark.char :: items.flatMap Item.chars := by
  rw [Rule.openString, Pattern.language_followedBy, Pattern.mem_language_seq]
  simp only [Pattern.mem_language_char]
  constructor
  · rintro ⟨_, rfl, _, ⟨texts, rfl, htexts⟩, rfl⟩
    obtain ⟨items, hitems, heq⟩ := exists_items fun w hw => mem_language_item.1 (htexts w hw)
    exact ⟨items, hitems, by rw [heq, List.singleton_append]⟩
  · rintro ⟨items, hitems, rfl⟩
    refine ⟨_, rfl, _, ⟨items.map Item.chars, rfl, fun w hw => ?_⟩, ?_⟩
    · obtain ⟨i, hi, rfl⟩ := List.mem_map.1 hw
      exact mem_language_item.2 ⟨i, hitems i hi, rfl⟩
    · rw [List.singleton_append, List.flatMap_def]

theorem mem_language_closedString :
    text ∈ (Rule.closedString mark.char).language ↔ ∃ items, mark.Spells items text := by
  rw [Rule.closedString, Pattern.language_followedBy, Pattern.mem_language_seq]
  simp only [mem_language_openString, Pattern.mem_language_char]
  constructor
  · rintro ⟨_, ⟨items, hfits, rfl⟩, _, rfl, rfl⟩
    exact ⟨items, hfits, rfl⟩
  · rintro ⟨items, hfits, rfl⟩
    exact ⟨_, ⟨items, hfits, rfl⟩, _, rfl, rfl⟩

/-! ## where strings end -/

/-- What may be the front of a string ends before the closing quote. -/
theorem Mark.Spells.length_lt (h : mark.Spells items text) (hfits : ∀ i ∈ items', i.Fits mark)
    (hfront : mark.char :: items'.flatMap Item.chars <+: text ++ back) :
    (mark.char :: items'.flatMap Item.chars).length < text.length := by
  obtain ⟨rest, hrest⟩ := hfront
  have hcut := h.cut_tail back
  rw [← hrest, List.cons_append, List.tail_cons, cut_chars (ne_slash_of_fits hfits)] at hcut
  obtain ⟨more, rfl⟩ : items' <+: items := by
    obtain ⟨more, hmore, -⟩ | ⟨more, rfl, hmore⟩ := List.append_eq_append_iff.1 hcut
    · exact ⟨more, hmore.symm⟩
    · -- an item more would be the closing quote
      cases more with
      | nil => exact ⟨[], by simp⟩
      | cons i more =>
        obtain rfl := (List.cons.inj hmore).1
        exact absurd (by simp) (quote_notMem hfits)
  obtain ⟨-, rfl⟩ := h
  simp only [List.flatMap_append, List.length_cons, List.length_append]
  omega

theorem Mark.Spells.longest_openString_le {n : Nat} (h : mark.Spells items text)
    (hn : (Rule.openString mark.char).longest (text ++ back) = some n) : n ≤ text.length := by
  have hlen := Pattern.longest_le hn
  obtain ⟨items', hfits, htake⟩ := mem_language_openString.1 (Pattern.take_mem_language hn)
  have hlt := h.length_lt hfits (htake ▸ List.take_prefix n (text ++ back))
  rw [← htake, List.length_take_of_le hlen] at hlt
  exact Nat.le_of_lt hlt

theorem Mark.Spells.longest_closedString (h : mark.Spells items text) (back : List Char) :
    (Rule.closedString mark.char).longest (text ++ back) = some text.length := by
  obtain ⟨n, hn, hle⟩ := Pattern.exists_longest (List.prefix_append text back)
    (mem_language_closedString.2 ⟨items, h⟩)
  have hlen := Pattern.longest_le hn
  obtain ⟨items', hfits, htake⟩ := mem_language_closedString.1 (Pattern.take_mem_language hn)
  have hfront : mark.char :: items'.flatMap Item.chars <+: text ++ back := by
    refine List.IsPrefix.trans ?_ (List.take_prefix n (text ++ back))
    rw [htake, ← List.cons_append]
    exact List.prefix_append ..
  have hlt := h.length_lt hfits hfront
  have hlast := congrArg List.length htake
  rw [List.length_take_of_le hlen, ← List.cons_append, List.length_append,
    List.length_singleton] at hlast
  rw [hn, Nat.le_antisymm (by omega) hle]

end

end Quoted

/-! ## tokens -/

namespace Rule

variable {r : Rule} {rs : List Rule} {cs w back : List Char} {n : Nat}

/-- A rule is the best one if none behind it reaches further. -/
theorem best_cons_of_le (h : r.reach cs = some n)
    (hrs : ∀ r' ∈ rs, ∀ m, r'.reach cs = some m → m ≤ n) : best (r :: rs) cs = some (r, n) := by
  unfold best
  rw [h]
  cases hbest : best rs cs with
  | none => rfl
  | some found =>
    obtain ⟨r', m⟩ := found
    obtain ⟨hr', hreach⟩ := mem_of_best hbest
    simp only [if_neg (Nat.not_lt.2 (hrs r' hr' m hreach))]

/-- The rule of the strings in these quotes. -/
def string (mark : Quoted.Mark) : Rule :=
  ⟨closedString mark.char, none, fun cs => some (mark.kind (Quoted.value mark.char cs))⟩

/-- The rules that may begin with a quote. -/
theorem filter_table_string (mark : Quoted.Mark) :
    table.filter (·.pattern.opensWith mark.char) = [string mark,
      ⟨openString mark.char, none, fun _ => some (.invalid .unterminatedString)⟩] := by
  cases mark with
  | single => exact filter_table_quote
  | double => exact filter_table_doubleQuote

/-- Only the rule of strings reads strings. -/
theorem of_read_string {mark : Quoted.Mark} {value : String} (hr : r ∈ table)
    (hread : r.read w = some (mark.kind value)) :
    r.pattern = closedString mark.char ∧ value = Quoted.value mark.char w := by
  simp only [table, words, classes, faults, List.mem_append, List.mem_map, List.mem_cons,
    List.not_mem_nil, or_false] at hr
  obtain ((⟨word, -, rfl⟩ | ⟨s, -, rfl⟩) | rfl | rfl | rfl | rfl | rfl | rfl | rfl | rfl | rfl |
    rfl | rfl | rfl | rfl) | rfl | rfl | rfl := hr
  all_goals cases mark <;> cases hread
  · exact ⟨rfl, rfl⟩
  · exact ⟨rfl, rfl⟩

end Rule

namespace Quoted.Mark

variable {mark : Mark} {items : List Item} {text : List Char}

/-- The items between quotes are read as one string, whatever follows. -/
theorem Spells.best (h : mark.Spells items text) (back : List Char) :
    Rule.best Rule.table (text ++ back) = some (Rule.string mark, text.length) := by
  have hclosed : (Rule.string mark).reach (text ++ back) = some text.length := by
    rw [Rule.reach, Rule.string, h.longest_closedString back]
    rfl
  have htext : text ++ back = mark.char :: (text ++ back).tail := by
    rw [h.2]
    rfl
  rw [htext, Rule.best_filter Rule.nullable_of_mem_table, Rule.filter_table_string, ← htext]
  refine Rule.best_cons_of_le hclosed fun r hr n hn => ?_
  rw [List.mem_singleton.1 hr] at hn
  exact h.longest_openString_le (Rule.longest_of_reach hn)

theorem Spells.leads (h : mark.Spells items text) (back : List Char) :
    Token.Leads (some (mark.kind (String.ofList (items.flatMap (Item.value mark))))) text back := by
  rw [← h.value_eq]
  exact .of_best (h.best back)

end Quoted.Mark

namespace Token

open Quoted

/-- The text of a string is items between its quotes. -/
theorem Leads.exists_spells {mark : Mark} {value : String} {piece back : List Char}
    (h : Leads (some (mark.kind value)) piece back) :
    ∃ items, mark.Spells items piece ∧ value = String.ofList (items.flatMap (Item.value mark)) := by
  obtain ⟨r, hr, -, hmem, hread⟩ := h.exists_read fun c => by cases mark <;> exact nofun
  obtain ⟨hpattern, rfl⟩ := Rule.of_read_string hr hread
  rw [hpattern] at hmem
  obtain ⟨items, hitems⟩ := mem_language_closedString.1 hmem
  exact ⟨items, hitems, hitems.value_eq⟩

/-- **Strings**: the text of a string token is items between quotes, in one way, and its value
is that of the items, so no backslash is left alone before the closing quote.  And every text
is the value of its literal, which is read as one token whatever follows. -/
theorem strings_of_ofText (mark : Mark) :
    (∀ (source value : String) (t : Token Span), t ∈ ofText source → t.kind = mark.kind value →
      ∃ piece back items, t.span.Cuts 0 source.toList piece back ∧ mark.Spells items piece ∧
        (∀ items', mark.Spells items' piece → items' = items) ∧
        value = String.ofList (items.flatMap (Item.value mark)) ∧
        ∀ items' : List Item, (∀ c, .plain c ∈ items' → c ≠ '\\') →
          piece ≠ mark.char :: (items'.flatMap Item.chars ++ ['\\', mark.char])) ∧
    ∀ value rest : String, (ofText (String.ofList (mark.literal value) ++ rest)).head?
      = some ⟨mark.kind value, ⟨0, byteLength (mark.literal value)⟩, false⟩ := by
  constructor
  · intro source value t ht hkind
    obtain ⟨piece, back, hcuts, hleads⟩ := (divides_scan 0 false source.toList).exists_cuts t ht
    rw [hkind] at hleads
    obtain ⟨items, hitems, hvalue⟩ := hleads.exists_spells
    exact ⟨piece, back, items, hcuts, hitems, fun _ h => hitems.unique h, hvalue,
      fun _ h => hitems.ne_lone h⟩
  · intro value rest
    have hleads := (mark.spells_literal value).leads rest.toList
    rw [mark.value_items] at hleads
    rw [ofText, String.toList_append, String.toList_ofList, hleads.scan_token, List.head?_cons,
      Nat.zero_add]

/-- A tab, a backslash that stays, and a quote that does not close the string. -/
theorem strings_of_ofText_tab :
    ⟨.doubleQuoted "\t\\q\"", ⟨1, 9⟩, false⟩ ∈ ofText " \"\\t\\q\\\"\";" ∧
    ∃ piece back items, Span.Cuts ⟨1, 9⟩ 0 " \"\\t\\q\\\"\";".toList piece back ∧
      Mark.double.Spells items piece ∧
      (∀ items', Mark.double.Spells items' piece → items' = items) ∧
      "\t\\q\"" = String.ofList (items.flatMap (Item.value .double)) ∧
      ∀ items' : List Item, (∀ c, .plain c ∈ items' → c ≠ '\\') →
        piece ≠ Mark.double.char :: (items'.flatMap Item.chars ++ ['\\', Mark.double.char]) := by
  have hmem : (⟨.doubleQuoted "\t\\q\"", ⟨1, 9⟩, false⟩ : Token Span)
      ∈ ofText " \"\\t\\q\\\"\";" := by decide
  exact ⟨hmem, (strings_of_ofText .double).1 _ _ _ hmem rfl⟩

end Token

end CallGrammar
