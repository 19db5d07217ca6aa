import CallGrammar.Proofs.Disambiguation
import CallGrammar.Proofs.LongestMatch

/-!
# CallGrammar.Proofs.Reserved

Keywords as names.  A keyword does not count right before a colon, and its text is then a
name like any other: `true::A` invokes `true` on `::A`.  This is the only way in which a
name of a tree comes to be a keyword.
-/

namespace CallGrammar

/-! ## keywords before colons -/

namespace Token

/-- No kind but keywords and names has a keyword for its text. -/
theorem text_notMem_language (word : Keyword) :
    (∀ s : Symbol, word.text ≠ s.text) ∧
      ∀ k ∈ [Kind.integer "", .float "", .singleQuoted "", .doubleQuoted "", .reference "",
        .var "", .lineComment "", .newline], word.text.toList ∉ k.pattern.language := by
  constructor
  · have hall : ∀ s ∈ Symbol.all, word.text ≠ s.text := by cases word <;> decide
    exact fun s => hall s s.mem_all
  · cases word <;> decide

/-- Right before a colon a keyword is a name. -/
theorem Leads.name_of_colon {kind : Kind} {word : Keyword} {back : List Char}
    (h : Leads (some kind) word.text.toList (':' :: back)) : kind = .name word.text := by
  have hlower : word.text.toList ∈ (Kind.name word.text).pattern.language := by
    cases word <;> decide
  obtain ⟨hsymbol, hother⟩ := text_notMem_language word
  have hlongest := h.longest
  cases kind with
  | name text => rw [String.toList_inj.1 (h.spelling rfl : text.toList = word.text.toList)]
  | keyword word' =>
    obtain rfl := Keyword.eq_of_text (Pattern.mem_language_text.1 hlongest.1)
    exact absurd rfl ((h.keyword_iff rfl).1 rfl)
  | symbol s =>
    exact absurd (String.toList_inj.1 (Pattern.mem_language_text.1 hlongest.1)) (hsymbol s)
  | invalid fault =>
    obtain hnone | ⟨rest, hslash, -⟩ := hlongest
    · have hnil := hnone (some (.name word.text)) _ hlower (List.prefix_append _ _)
      cases word <;> cases hnil
    · cases word <;> cases hslash
  | blockComment text =>
    obtain ⟨hslash, -⟩ := hlongest
    cases word <;> cases hslash
  | integer => exact absurd hlongest.1 (hother (.integer "") (by simp))
  | float => exact absurd hlongest.1 (hother (.float "") (by simp))
  | singleQuoted => exact absurd hlongest.1 (hother (.singleQuoted "") (by simp))
  | doubleQuoted => exact absurd hlongest.1 (hother (.doubleQuoted "") (by simp))
  | reference => exact absurd hlongest.1 (hother (.reference "") (by simp))
  | var => exact absurd hlongest.1 (hother (.var "") (by simp))
  | lineComment => exact absurd hlongest.1 (hother (.lineComment "") (by simp))
  | newline => exact absurd hlongest.1 (hother .newline (by simp))

/-- The names of a source that are keywords are the keywords right before a colon. -/
theorem kind_eq_name_iff {source : String} {t : Token Span} (ht : t ∈ ofText source)
    (word : Keyword) : t.kind = .name word.text ↔
      ∃ back, t.span.Cuts 0 source.toList word.text.toList (':' :: back) := by
  obtain ⟨piece, back, hcuts, hleads⟩ := (divides_scan 0 false source.toList).exists_cuts t ht
  constructor
  · intro hname
    rw [hname] at hleads
    obtain rfl : word.text.toList = piece := hleads.spelling rfl
    have hcolon : back.head? = some ':' := by
      by_contra hcolon
      cases (hleads.keyword_iff rfl).2 hcolon
    obtain ⟨rest, rfl⟩ := List.head?_eq_some_iff.1 hcolon
    exact ⟨rest, hcuts⟩
  · rintro ⟨rest, hcuts'⟩
    obtain ⟨rfl, rfl⟩ := hcuts.unique hcuts'
    exact hleads.name_of_colon

end Token

/-! ## names of trees -/

/-- The text of a name. -/
def Kind.name? : Kind → Option String
  | .name text => some text
  | _ => none

/-- A kind with the text of a name is the name. -/
theorem Kind.name?_eq_some {k : Kind} {text : String} : k.name? = some text ↔ k = .name text := by
  cases k <;> simp [name?]

section

variable {calls : StatementCalls} {stmt : Option (Stmt Span)} {previous : Option Kind}
  {t : Token Span} {ts after rest : List (Token Span)} {own ns : List (Node Span)}

/-- A token gives a name if it is one. -/
theorem Own.texts_names (h : Own calls stmt previous t rest own) :
    (own.filterMap Node.name?).map Prod.fst = t.kind.name?.toList := by
  unfold Own at h
  split at h
  · next text hk =>
    obtain ⟨role, rfl, -⟩ := h
    rw [hk]
    rfl
  · next hk =>
    obtain ⟨words, rfl⟩ := h
    have hnone : t.kind.name? = none :=
      Option.eq_none_iff_forall_not_mem.2 fun text htext => hk text (Kind.name?_eq_some.1 htext)
    have hleaves : (words.map (Node.leaf (σ := Span))).filterMap Node.name? = [] := by
      rw [List.filterMap_map]
      exact List.filterMap_eq_nil_iff.2 fun _ _ => rfl
    rw [hnone, hleaves]
    rfl

/-- The names among the nodes have the texts of the names among the tokens. -/
theorem Played.texts_names (h : Played calls stmt previous ts after ns) :
    (ns.filterMap Node.name?).map Prod.fst = ts.filterMap (·.kind.name?) := by
  induction h with
  | nil => rfl
  | @cons _ stmt' _ t ts after own nodes _ hown _ ih =>
    rw [List.filterMap_append, List.filterMap_append, names_stmtNode, List.nil_append,
      List.map_append, ih, hown.texts_names, List.filterMap_cons]
    cases t.kind.name? <;> rfl

end

/-- The names of a tree are the name tokens of its source. -/
theorem exists_role_iff_of_parse {calls : StatementCalls} {source : String} {p : Program Span}
    (h : parse calls source = .ok p) (text : String) :
    (∃ role, (text, role) ∈ p.names) ↔
      ∃ t ∈ Token.significant (Token.ofText source), t.kind = .name text := by
  obtain ⟨stmt, ns, hnodes, hplayed⟩ := walked_of_parse h
  have hnames : p.names.map Prod.fst
      = (Token.significant (Token.ofText source)).filterMap (·.kind.name?) := by
    rw [Program.names, hnodes, List.filterMap_append, names_stmtNode, List.nil_append,
      hplayed.texts_names]
  calc (∃ role, (text, role) ∈ p.names)
      ↔ text ∈ p.names.map Prod.fst := by simp
    _ ↔ ∃ t ∈ Token.significant (Token.ofText source), t.kind.name? = some text := by
        rw [hnames, List.mem_filterMap]
    _ ↔ _ := by simp only [Kind.name?_eq_some]

/-- **Reserved words**: no name of a tree is a keyword, except where the source has a
keyword right before a colon. -/
theorem reserved_iff_of_parse {calls : StatementCalls} {source : String} {p : Program Span}
    (h : parse calls source = .ok p) :
    (∀ text role, (text, role) ∈ p.names → ∀ word : Keyword, text ≠ word.text) ↔
      ∀ t ∈ Token.significant (Token.ofText source), ∀ (word : Keyword) (back : List Char),
        ¬ t.span.Cuts 0 source.toList word.text.toList (':' :: back) := by
  have hlexed : ∀ t ∈ Token.significant (Token.ofText source), t ∈ Token.ofText source :=
    fun t ht => List.mem_of_mem_filter ht
  constructor
  · intro hreserved t ht word back hcuts
    have hname := (Token.kind_eq_name_iff (hlexed t ht) word).2 ⟨back, hcuts⟩
    obtain ⟨role, hrole⟩ := (exists_role_iff_of_parse h word.text).2 ⟨t, ht, hname⟩
    exact hreserved word.text role hrole word rfl
  · rintro hcolon text role hrole word rfl
    obtain ⟨t, ht, hname⟩ := (exists_role_iff_of_parse h word.text).1 ⟨role, hrole⟩
    obtain ⟨back, hcuts⟩ := (Token.kind_eq_name_iff (hlexed t ht) word).1 hname
    exact hcolon t ht word back hcuts

/-- A qualified name that begins with a keyword is a name of its own. -/
theorem reserved_iff_of_parse_qualified : ∃ p, parse .default "foo iffy::a or if::a" = .ok p ∧
    ∀ text role, (text, role) ∈ p.names → ∀ word : Keyword, text ≠ word.text := by
  have hok : (parse .default "foo iffy::a or if::a").isOk = true := by decide +kernel
  cases hp : parse .default "foo iffy::a or if::a" with
  | error e =>
    rw [hp] at hok
    cases hok
  | ok p =>
    have hkinds : ∀ t ∈ Token.ofText "foo iffy::a or if::a",
        ∀ word ∈ Keyword.all, t.kind ≠ .name word.text := by decide +kernel
    refine ⟨p, rfl, (reserved_iff_of_parse hp).2 fun t ht word back hcuts => ?_⟩
    have hlexed : t ∈ Token.ofText "foo iffy::a or if::a" := List.mem_of_mem_filter ht
    have hname := (Token.kind_eq_name_iff hlexed word).2 ⟨back, hcuts⟩
    exact hkinds t hlexed word word.mem_all hname

/-- Before a colon `true` is invoked. -/
theorem mem_names_true : ∃ p role, parse .default "true::A" = .ok p ∧
    (Keyword.trueWord.text, role) ∈ p.names := by
  have hnames : (parse .default "true::A").toOption.map
      (fun p => p.names.map Prod.fst) = some ["true"] := by decide +kernel
  cases hp : parse .default "true::A" with
  | error e =>
    rw [hp] at hnames
    cases hnames
  | ok p =>
    rw [hp] at hnames
    have hmap : p.names.map Prod.fst = ["true"] := Option.some.inj hnames
    have hmem : "true" ∈ p.names.map Prod.fst := by
      rw [hmap]
      exact List.mem_cons_self
    obtain ⟨⟨text, role⟩, hrole, rfl⟩ := List.mem_map.1 hmem
    exact ⟨p, role, rfl, hrole⟩

end CallGrammar
