import CallGrammar.Layout

/-!
# CallGrammar.Proofs.Forms

Texts in parentheses, read back.  A laid-out part shows its forms: the part without its line
breaks and indentation.

1. The text of a part shows the lexemes of its forms, in order, with blanks between them
   (`Part.shows_format`).
2. A text shows one sequence of lexemes only, if atoms can be told apart by what may stand
   behind them (`Atoms`).
3. Lexemes are those of one sequence of forms only.

What an atom is is left open here; there are words without blanks (`bareAtoms`), and there may
be quoted ones.
-/

namespace CallGrammar

/-! ## forms -/

/-- A word, or forms in parentheses. -/
inductive Form where
  | atom (text : String)
  | list (forms : List Form)

/-- A parenthesis or a word. -/
inductive Lexeme where
  | opening
  | closing
  | atom (text : String)

namespace Form

mutual

def lexemes : Form → List Lexeme
  | atom text => [.atom text]
  | list forms => .opening :: (lexemesOfAll forms ++ [.closing])

def lexemesOfAll : List Form → List Lexeme
  | [] => []
  | form :: forms => form.lexemes ++ lexemesOfAll forms

end

/-- The lexemes of forms one after the other. -/
@[simp] theorem lexemesOfAll_append (forms forms' : List Form) :
    lexemesOfAll (forms ++ forms') = lexemesOfAll forms ++ lexemesOfAll forms' := by
  induction forms with
  | nil => rfl
  | cons form forms ih =>
    rw [List.cons_append, lexemesOfAll, ih, lexemesOfAll, List.append_assoc]

/-- The forms of lexemes, inside `outer` lists that are still open; none if the parentheses do
not match.  Of each open list, the innermost one included, it holds the forms so far, last
first. -/
def gather? : List Lexeme → (current : List Form) → (outer : List (List Form)) →
    Option (List Form)
  | [], current, [] => some current.reverse
  | [], _, _ :: _ => none
  | .atom text :: ls, current, outer => gather? ls (.atom text :: current) outer
  | .opening :: ls, current, outer => gather? ls [] (current :: outer)
  | .closing :: ls, current, before :: outer => gather? ls (.list current.reverse :: before) outer
  | .closing :: _, _, [] => none

mutual

/-- The lexemes of a form are gathered to the form. -/
theorem gather?_lexemes : (form : Form) → (rest : List Lexeme) → (current : List Form) →
    (outer : List (List Form)) →
    gather? (form.lexemes ++ rest) current outer = gather? rest (form :: current) outer
  | atom text, rest, current, outer => by
    rw [lexemes, List.singleton_append, gather?]
  | list forms, rest, current, outer => by
    rw [lexemes, List.cons_append, List.append_assoc, gather?, gather?_lexemesOfAll forms,
      List.append_nil, List.singleton_append, gather?, List.reverse_reverse]

/-- Those of several forms are gathered to all of them, the last one first. -/
theorem gather?_lexemesOfAll : (forms : List Form) → (rest : List Lexeme) →
    (current : List Form) → (outer : List (List Form)) →
    gather? (lexemesOfAll forms ++ rest) current outer
      = gather? rest (forms.reverse ++ current) outer
  | [], rest, current, outer => by
    rw [lexemesOfAll, List.nil_append, List.reverse_nil, List.nil_append]
  | form :: forms, rest, current, outer => by
    rw [lexemesOfAll, List.append_assoc, gather?_lexemes form, gather?_lexemesOfAll forms,
      List.reverse_cons, List.append_assoc, List.singleton_append]

end

/-- Forms are read back from their lexemes. -/
theorem gather?_all (forms : List Form) : gather? (lexemesOfAll forms) [] [] = some forms := by
  have hall := gather?_lexemesOfAll forms [] [] []
  rw [List.append_nil, List.append_nil] at hall
  rw [hall, gather?, List.reverse_reverse]

/-- Forms are told apart by their lexemes. -/
theorem lexemesOfAll_inj {forms forms' : List Form} (h : lexemesOfAll forms = lexemesOfAll forms') :
    forms = forms' := by
  rw [← Option.some.injEq, ← gather?_all forms, h, gather?_all]

end Form

namespace Part

mutual

/-- The form of a part; line breaks and indentation have none. -/
def forms : Part → List Form
  | text s => [.atom s]
  | list parts => [.list (formsOfAll parts)]
  | lineBreak | indent | dedent => []

/-- The forms of parts that follow each other. -/
def formsOfAll : List Part → List Form
  | [] => []
  | part :: parts => part.forms ++ formsOfAll parts

end

/-- The forms of parts one after the other. -/
@[simp] theorem formsOfAll_append (parts parts' : List Part) :
    formsOfAll (parts ++ parts') = formsOfAll parts ++ formsOfAll parts' := by
  induction parts with
  | nil => rfl
  | cons part parts ih => rw [List.cons_append, formsOfAll, ih, formsOfAll, List.append_assoc]

end Part

/-! ## lexemes in a text -/

/-- What may stand right behind an atom: a space, a line break, a closing parenthesis or
nothing. -/
def EndsAtom (cs : List Char) : Prop := ∀ c ∈ cs.head?, c = ' ' ∨ c = '\n' ∨ c = ')'

/-- The atoms begin and end with visible characters that are no parentheses, and none is
another one with what may stand behind it. -/
structure Atoms (IsAtom : List Char → Prop) : Prop where
  ne_nil : ¬ IsAtom []
  front : ∀ {c cs}, IsAtom (c :: cs) → Text.isBlank c = false ∧ c ≠ '(' ∧ c ≠ ')'
  back : ∀ {cs c}, IsAtom (cs ++ [c]) → Text.isBlank c = false ∧ c ≠ '('
  apart : ∀ {a a' rest rest'}, IsAtom a → IsAtom a' → EndsAtom rest → EndsAtom rest' →
    a ++ rest = a' ++ rest' → a = a'

/-- Visible characters, none of them a parenthesis. -/
def IsBare (cs : List Char) : Prop :=
  cs ≠ [] ∧ ∀ c ∈ cs, Text.isBlank c = false ∧ c ≠ '(' ∧ c ≠ ')'

instance (cs : List Char) : Decidable (IsBare cs) :=
  @instDecidableAnd _ _ inferInstance (List.decidableBAll _ cs)

/-- A bare atom goes on as far as it can. -/
theorem IsBare.eq_nil_of_append {a w rest : List Char} (h : IsBare (a ++ w))
    (hends : EndsAtom (w ++ rest)) : w = [] := by
  cases w with
  | nil => rfl
  | cons c w =>
    obtain ⟨hblank, -, hclosing⟩ := h.2 c (by simp)
    obtain rfl | rfl | rfl := hends c rfl
    · exact absurd hblank (by decide)
    · exact absurd hblank (by decide)
    · exact absurd rfl hclosing

/-- Bare words end at the first character that may follow an atom. -/
theorem bareAtoms : Atoms IsBare where
  ne_nil := fun h => h.1 rfl
  front := fun h => h.2 _ List.mem_cons_self
  back := by
    intro cs c h
    obtain ⟨hblank, hopening, -⟩ := h.2 c (by simp)
    exact ⟨hblank, hopening⟩
  apart := by
    intro a a' rest rest' h h' hends hends' heq
    obtain ⟨w, rfl, rfl⟩ | ⟨w, rfl, rfl⟩ := List.append_eq_append_iff.1 heq
    · rw [h'.eq_nil_of_append hends, List.append_nil]
    · rw [h.eq_nil_of_append hends', List.append_nil]

/-- The text shows the lexemes, with any blanks around them. -/
inductive Shows (IsAtom : List Char → Prop) : List Lexeme → List Char → Prop where
  | nil : Shows IsAtom [] []
  | blank {c : Char} {ls : List Lexeme} {cs : List Char} (hc : Text.isBlank c = true)
      (h : Shows IsAtom ls cs) : Shows IsAtom ls (c :: cs)
  | opening {ls : List Lexeme} {cs : List Char} (h : Shows IsAtom ls cs) :
      Shows IsAtom (.opening :: ls) ('(' :: cs)
  | closing {ls : List Lexeme} {cs : List Char} (h : Shows IsAtom ls cs) :
      Shows IsAtom (.closing :: ls) (')' :: cs)
  | atom {text : String} {ls : List Lexeme} {cs : List Char} (ha : IsAtom text.toList)
      (hends : EndsAtom cs) (h : Shows IsAtom ls cs) :
      Shows IsAtom (.atom text :: ls) (text.toList ++ cs)

section

variable {IsAtom : List Char → Prop} {ls ls' : List Lexeme} {cs : List Char} {text : String}
  {ps qs : List String}

/-- A text that begins with an atom does not begin with a blank or a parenthesis. -/
theorem Atoms.append_ne (hatoms : Atoms IsAtom) (ha : IsAtom text.toList) {c : Char}
    (hc : Text.isBlank c = true ∨ c = '(' ∨ c = ')') {rest : List Char} :
    text.toList ++ cs ≠ c :: rest := by
  cases htext : text.toList with
  | nil =>
    rw [htext] at ha
    exact absurd ha hatoms.ne_nil
  | cons d ds =>
    rw [htext] at ha
    obtain ⟨hblank, hopening, hclosing⟩ := hatoms.front ha
    intro heq
    obtain rfl : d = c := (List.cons.inj heq).1
    obtain hc | hc | hc := hc
    · rw [hblank] at hc
      cases hc
    · exact hopening hc
    · exact hclosing hc

/-- A text shows one sequence of lexemes. -/
theorem Shows.unique (hatoms : Atoms IsAtom) {cs' : List Char} (h : Shows IsAtom ls cs)
    (h' : Shows IsAtom ls' cs') (hcs : cs = cs') : ls = ls' := by
  have hopening : Text.isBlank '(' ≠ true := by decide
  have hclosing : Text.isBlank ')' ≠ true := by decide
  -- the first character tells which rule both are of, but for two atoms
  induction h generalizing ls' cs' with
  | nil =>
    cases h' with
    | nil => rfl
    | atom ha =>
      have hnil := (List.append_eq_nil_iff.1 hcs.symm).1
      rw [hnil] at ha
      exact absurd ha hatoms.ne_nil
    | _ => cases hcs
  | blank hc _ ih =>
    cases h' with
    | nil => cases hcs
    | blank hc' h' => exact ih h' (List.cons.inj hcs).2
    | opening => exact absurd ((List.cons.inj hcs).1 ▸ hc) hopening
    | closing => exact absurd ((List.cons.inj hcs).1 ▸ hc) hclosing
    | atom ha => exact absurd hcs.symm (hatoms.append_ne ha (.inl hc))
  | opening _ ih =>
    cases h' with
    | opening h' => rw [ih h' (List.cons.inj hcs).2]
    | blank hc => exact absurd ((List.cons.inj hcs).1 ▸ hc) hopening
    | atom ha => exact absurd hcs.symm (hatoms.append_ne ha (.inr (.inl rfl)))
    | nil | closing => cases hcs
  | closing _ ih =>
    cases h' with
    | closing h' => rw [ih h' (List.cons.inj hcs).2]
    | blank hc => exact absurd ((List.cons.inj hcs).1 ▸ hc) hclosing
    | atom ha => exact absurd hcs.symm (hatoms.append_ne ha (.inr (.inr rfl)))
    | nil | opening => cases hcs
  | atom ha hends _ ih =>
    cases h' with
    | nil =>
      rw [(List.append_eq_nil_iff.1 hcs).1] at ha
      exact absurd ha hatoms.ne_nil
    | blank hc => exact absurd hcs (hatoms.append_ne ha (.inl hc))
    | opening => exact absurd hcs (hatoms.append_ne ha (.inr (.inl rfl)))
    | closing => exact absurd hcs (hatoms.append_ne ha (.inr (.inr rfl)))
    | atom ha' hends' h' =>
      have htext := hatoms.apart ha ha' hends hends' hcs
      rw [htext] at hcs
      rw [String.toList_inj.1 htext, ih h' (List.append_cancel_left hcs)]

/-! ## lexemes in a layout -/

namespace Part

/-- A line break and its indentation are blank. -/
theorem isBlank_of_mem_breakPiece {level : Nat} {c : Char} (hc : c ∈ (breakPiece level).toList) :
    Text.isBlank c = true := by
  rw [breakPiece, String.toList_ofList, List.mem_cons, List.mem_replicate] at hc
  obtain rfl | ⟨-, rfl⟩ := hc <;> decide

/-- No space is put before a line break. -/
theorem spaceBetween_breakPiece (before : String) (level : Nat) :
    spaceBetween before (breakPiece level) = false := by
  have hblank : Text.isBlank '\n' = true := by decide
  simp [spaceBetween, breakPiece, hblank]

/-- No space is put behind a parenthesis that opens. -/
theorem spaceBetween_opening (piece : String) : spaceBetween "(" piece = false := by
  simp [spaceBetween]

end Part

/-- The pieces are the lexemes, with line breaks between them. -/
inductive Pieces (IsAtom : List Char → Prop) : List String → List Lexeme → Prop where
  | nil : Pieces IsAtom [] []
  | opening {ps : List String} {ls : List Lexeme} (h : Pieces IsAtom ps ls) :
      Pieces IsAtom ("(" :: ps) (.opening :: ls)
  | closing {ps : List String} {ls : List Lexeme} (h : Pieces IsAtom ps ls) :
      Pieces IsAtom (")" :: ps) (.closing :: ls)
  | lineBreak {level : Nat} {ps : List String} {ls : List Lexeme} (h : Pieces IsAtom ps ls) :
      Pieces IsAtom (Part.breakPiece level :: ps) ls
  | atom {text : String} {ps : List String} {ls : List Lexeme} (ha : IsAtom text.toList)
      (h : Pieces IsAtom ps ls) : Pieces IsAtom (text :: ps) (.atom text :: ls)

theorem Pieces.append (h : Pieces IsAtom ps ls) (h' : Pieces IsAtom qs ls') :
    Pieces IsAtom (ps ++ qs) (ls ++ ls') := by
  induction h with
  | nil => exact h'
  | opening _ ih => exact .opening ih
  | closing _ ih => exact .closing ih
  | lineBreak _ ih => exact .lineBreak ih
  | atom ha _ ih => exact .atom ha ih

namespace Part

mutual

/-- The pieces of a part are those of its lexemes, wherever its lines are broken. -/
theorem pieces_forms : (part : Part) → (level : Nat) →
    (∀ text, .atom text ∈ Form.lexemesOfAll part.forms → IsAtom text.toList) →
    Pieces IsAtom (part.pieces level).1 (Form.lexemesOfAll part.forms)
  | .text s, level, h => .atom (h s List.mem_cons_self) .nil
  | .list parts, level, h => by
    have hlexemes : Form.lexemesOfAll (Part.list parts).forms
        = .opening :: (Form.lexemesOfAll (formsOfAll parts) ++ [.closing]) := by
      simp [forms, Form.lexemesOfAll, Form.lexemes]
    rw [hlexemes] at h ⊢
    have hinner := piecesOfAll_forms parts level fun text htext => h text (by simp [htext])
    exact .opening (hinner.append (.closing .nil))
  | .lineBreak, level, _ => .lineBreak .nil
  | .indent, _, _ | .dedent, _, _ => .nil

theorem piecesOfAll_forms : (parts : List Part) → (level : Nat) →
    (∀ text, .atom text ∈ Form.lexemesOfAll (formsOfAll parts) → IsAtom text.toList) →
    Pieces IsAtom (piecesOfAll level parts).1 (Form.lexemesOfAll (formsOfAll parts))
  | [], _, _ => .nil
  | part :: parts, level, h => by
    rw [formsOfAll, Form.lexemesOfAll_append] at h ⊢
    have hfirst := pieces_forms part level fun text htext => h text (List.mem_append_left _ htext)
    have hrest := piecesOfAll_forms parts (part.pieces level).2 fun text htext =>
      h text (List.mem_append_right _ htext)
    exact hfirst.append hrest

end

end Part

/-- A space goes behind an atom, but before a closing parenthesis or a blank. -/
theorem Atoms.spaceBetween (hatoms : Atoms IsAtom) (ha : IsAtom text.toList) (piece : String) :
    Part.spaceBetween text piece = (piece != ")" && !piece.toList.head?.any Text.isBlank) := by
  have hne : text.toList ≠ [] := fun hnil => hatoms.ne_nil (hnil ▸ ha)
  have htext := (List.dropLast_concat_getLast hne).symm
  rw [htext] at ha
  obtain ⟨hblank, hopening⟩ := hatoms.back ha
  have hlast : text.toList.getLast? = some (text.toList.getLast hne) :=
    List.getLast?_eq_some_getLast hne
  have hparen : (text.toList.getLast hne == '(') = false := beq_eq_false_iff_ne.2 hopening
  simp [Part.spaceBetween, hlast, hblank, hparen]

/-- What comes behind an atom ends it. -/
theorem Pieces.endsAtom (hatoms : Atoms IsAtom) (ha : IsAtom text.toList)
    (h : Pieces IsAtom ps ls) : EndsAtom (Part.joinAfter text ps) := by
  cases h with
  | nil => exact nofun
  | opening =>
    have hspace : Part.spaceBetween text "(" = true := by
      rw [hatoms.spaceBetween ha]
      decide
    simp [EndsAtom, Part.joinAfter, hspace]
  | closing =>
    have hspace : Part.spaceBetween text ")" = false := hatoms.spaceBetween ha ")"
    simp [EndsAtom, Part.joinAfter, hspace]
  | @lineBreak level =>
    rw [Part.joinAfter, Part.spaceBetween_breakPiece]
    simp [EndsAtom, Part.breakPiece]
  | @atom text' ps ls ha' =>
    have hspace : Part.spaceBetween text text' = true := by
      rw [hatoms.spaceBetween ha]
      cases htext : text'.toList with
      | nil => exact absurd (htext ▸ ha') hatoms.ne_nil
      | cons c cs =>
        obtain ⟨hblank, -, hclosing⟩ := hatoms.front (htext ▸ ha')
        have hne : text' ≠ ")" := by
          rintro rfl
          exact hclosing (List.cons.inj htext).1.symm
        simp [hblank, hne]
    simp [EndsAtom, Part.joinAfter, hspace]

/-- Blanks in front show nothing more. -/
theorem Shows.blanks {bs : List Char} (hbs : ∀ c ∈ bs, Text.isBlank c = true)
    (h : Shows IsAtom ls cs) : Shows IsAtom ls (bs ++ cs) := by
  induction bs with
  | nil => exact h
  | cons b bs ih =>
    obtain ⟨hb, hbs⟩ := List.forall_mem_cons.1 hbs
    exact .blank hb (ih hbs)

/-- Joined, the pieces show their lexemes. -/
theorem Pieces.shows (hatoms : Atoms IsAtom) (h : Pieces IsAtom ps ls) (before : String) :
    Shows IsAtom ls (Part.joinAfter before ps) := by
  have hspace (before piece : String) :
      ∀ c ∈ if Part.spaceBetween before piece then [' '] else [], Text.isBlank c = true := by
    intro c hc
    split at hc
    · rw [List.mem_singleton.1 hc]
      decide
    · cases hc
  induction h generalizing before with
  | nil => exact .nil
  | opening _ ih =>
    rw [Part.joinAfter, List.append_assoc]
    exact .blanks (hspace before "(") (.opening (ih "("))
  | closing _ ih =>
    rw [Part.joinAfter, List.append_assoc]
    exact .blanks (hspace before ")") (.closing (ih ")"))
  | lineBreak _ ih =>
    rw [Part.joinAfter, List.append_assoc]
    exact .blanks (hspace before _) (.blanks (fun _ => Part.isBlank_of_mem_breakPiece) (ih _))
  | @atom text _ _ ha h ih =>
    rw [Part.joinAfter, List.append_assoc]
    exact .blanks (hspace before text) (.atom ha (h.endsAtom hatoms ha) (ih text))

namespace Part

/-- Nothing goes before the first piece, as behind an opening parenthesis. -/
theorem join_eq_joinAfter (ps : List String) : join ps = joinAfter "(" ps := by
  cases ps with
  | nil => rfl
  | cons piece ps =>
    rw [join, joinAfter, spaceBetween_opening]
    rfl

/-- The text of a part shows its form. -/
theorem shows_format (hatoms : Atoms IsAtom) (part : Part)
    (h : ∀ text, .atom text ∈ Form.lexemesOfAll part.forms → IsAtom text.toList) :
    Shows IsAtom (Form.lexemesOfAll part.forms) part.format.toList := by
  have hpieces := part.pieces_forms 0 h
  rw [format, String.toList_ofList, join_eq_joinAfter]
  exact hpieces.shows hatoms "("

/-- Parts with the same text have the same form. -/
theorem forms_eq_of_format_eq (hatoms : Atoms IsAtom) {part part' : Part}
    (h : ∀ text, .atom text ∈ Form.lexemesOfAll part.forms → IsAtom text.toList)
    (h' : ∀ text, .atom text ∈ Form.lexemesOfAll part'.forms → IsAtom text.toList)
    (hformat : part.format = part'.format) : part.forms = part'.forms :=
  Form.lexemesOfAll_inj ((shows_format hatoms part h).unique hatoms (shows_format hatoms part' h')
    (congrArg String.toList hformat))

end Part

end

end CallGrammar
