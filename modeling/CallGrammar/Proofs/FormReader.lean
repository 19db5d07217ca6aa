import CallGrammar.Proofs.Indentation

/-!
# CallGrammar.Proofs.FormReader

A layout loses nothing in its text but its line breaks and indentation.  The reader splits a
text at blanks and parentheses and matches the parentheses (`Form.read?`); if the words of a
layout are bare, it gives back the layout without its line breaks and indentation.

The words in the layout of a tree that was read from a source are bare, but for its strings.
-/

namespace CallGrammar

/-! ## the reader -/

/-- The word of the characters, if there are any. -/
def Lexeme.ofWord (word : List Char) : List Lexeme :=
  if word = [] then [] else [.atom (String.ofList word)]

/-- The lexemes of a text, behind the characters of a word that has begun. -/
def Lexeme.ofText (word : List Char) : List Char → List Lexeme
  | [] => ofWord word
  | c :: cs =>
    if Text.isBlank c then ofWord word ++ ofText [] cs
    else if c = '(' then ofWord word ++ .opening :: ofText [] cs
    else if c = ')' then ofWord word ++ .closing :: ofText [] cs
    else ofText (word ++ [c]) cs

/-- The form that a text is, if it is one. -/
def Form.read? (s : String) : Option Form :=
  match gather? (Lexeme.ofText [] s.toList) [] [] with
  | some [form] => some form
  | _ => none

namespace Lexeme

variable {ls : List Lexeme} {word cs : List Char}

/-- The characters of a bare word are put behind the word that has begun. -/
theorem ofText_append (h : ∀ c ∈ cs, Text.isBlank c = false ∧ c ≠ '(' ∧ c ≠ ')')
    (word rest : List Char) : ofText word (cs ++ rest) = ofText (word ++ cs) rest := by
  induction cs generalizing word with
  | nil => simp
  | cons c cs ih =>
    obtain ⟨⟨hblank, hopening, hclosing⟩, h⟩ := List.forall_mem_cons.1 h
    rw [List.cons_append, ofText, hblank, if_neg Bool.false_ne_true, if_neg hopening,
      if_neg hclosing, ih h, List.append_assoc, List.singleton_append]

/-- A word ends where an atom may end. -/
theorem ofText_of_endsAtom (hends : EndsAtom cs) (word : List Char) :
    ofText word cs = ofWord word ++ ofText [] cs := by
  have hnil : ofWord [] = [] := rfl
  cases cs with
  | nil => simp [ofText, hnil]
  | cons c cs =>
    have hspace : Text.isBlank ' ' = true := by decide
    have hbreak : Text.isBlank '\n' = true := by decide
    have hclosing : Text.isBlank ')' = false := by decide
    obtain rfl | rfl | rfl := hends c rfl <;> simp [ofText, hnil, hspace, hbreak, hclosing]

/-- The reader finds the lexemes that a text shows. -/
theorem ofText_of_shows (h : Shows IsBare ls cs) : ofText [] cs = ls := by
  have hnil : ofWord [] = [] := rfl
  induction h with
  | nil => rfl
  | blank hc _ ih => rw [ofText, if_pos hc, hnil, List.nil_append, ih]
  | opening _ ih =>
    have hblank : Text.isBlank '(' = false := by decide
    simp [ofText, hblank, hnil, ih]
  | closing _ ih =>
    have hblank : Text.isBlank ')' = false := by decide
    simp [ofText, hblank, hnil, ih]
  | @atom text ls cs ha hends _ ih =>
    have hword : ofWord text.toList = [.atom text] := by
      rw [ofWord, if_neg ha.1, String.ofList_toList]
    rw [ofText_append ha.2, List.nil_append, ofText_of_endsAtom hends, hword, ih,
      List.singleton_append]

end Lexeme

/-! ## layouts -/

namespace Part

mutual

/-- The texts in a part. -/
def texts : Part → List String
  | text s => [s]
  | list parts => textsOfAll parts
  | lineBreak | indent | dedent => []

def textsOfAll : List Part → List String
  | [] => []
  | part :: parts => part.texts ++ textsOfAll parts

end

@[simp] theorem textsOfAll_append (parts parts' : List Part) :
    textsOfAll (parts ++ parts') = textsOfAll parts ++ textsOfAll parts' := by
  induction parts with
  | nil => rfl
  | cons part parts ih => rw [List.cons_append, textsOfAll, ih, textsOfAll, List.append_assoc]

mutual

/-- The atoms of a part are texts of it. -/
theorem mem_texts_of_mem_forms : (part : Part) → {s : String} →
    .atom s ∈ Form.lexemesOfAll part.forms → s ∈ part.texts
  | text _, _, h => by simpa [forms, Form.lexemesOfAll, Form.lexemes, texts] using h
  | list parts, _, h => by
    refine mem_textsOfAll_of_mem_forms parts ?_
    simpa [forms, Form.lexemesOfAll, Form.lexemes] using h
  | lineBreak, _, h | indent, _, h | dedent, _, h => nomatch h

theorem mem_textsOfAll_of_mem_forms : (parts : List Part) → {s : String} →
    .atom s ∈ Form.lexemesOfAll (formsOfAll parts) → s ∈ textsOfAll parts
  | [], _, h => nomatch h
  | part :: parts, _, h => by
    rw [formsOfAll, Form.lexemesOfAll_append] at h
    refine List.mem_append.2 ((List.mem_append.1 h).imp ?_ ?_)
    · exact mem_texts_of_mem_forms part
    · exact mem_textsOfAll_of_mem_forms parts

end

/-- The text of a part with bare words is read as its form. -/
theorem read?_format {part : Part} {form : Form} (hform : part.forms = [form])
    (h : ∀ s ∈ part.texts, IsBare s.toList) : Form.read? part.format = some form := by
  have hshows := part.shows_format bareAtoms fun s hs => h s (part.mem_texts_of_mem_forms hs)
  rw [Form.read?, Lexeme.ofText_of_shows hshows, Form.gather?_all, hform]

/-- The texts of well indented parts are fine. -/
theorem WellIndented.fine {Fine : String → Prop} {parts : List Part}
    (h : WellIndented Fine parts) : ∀ s ∈ textsOfAll parts, Fine s := by
  induction h with
  | nil | lineBreak => exact nofun
  | text hs => simpa [textsOfAll, texts] using hs
  | list _ ih => simpa [textsOfAll, texts] using ih
  | indented _ ih => simpa [textsOfAll, texts] using ih
  | append _ _ ih ih' =>
    rw [textsOfAll_append]
    exact List.forall_mem_append.2 ⟨ih, ih'⟩

end Part

/-! ## trees -/

/-- What stands for a readable word is a bare word, unless the word is a string. -/
theorem Word.isWord_of_mem_texts {word : Word} (h : word.Readable)
    (hstring : ∀ value, word ≠ .literal (.string value)) : ∀ s ∈ word.texts, IsWord s.toList := by
  cases word with
  | name s => simpa [texts, Readable] using h
  | reference s => simpa [texts] using h.1
  | var s =>
    have htext : ("$" ++ s).toList = '$' :: s.toList := String.toList_append
    rw [texts, List.forall_mem_cons, List.forall_mem_singleton, htext]
    exact ⟨h.1, h.1.cons (by decide)⟩
  | literal value =>
    rw [texts, List.forall_mem_singleton]
    cases value with
    | integer | float => exact h.1
    | string value => exact absurd rfl (hstring value)
    | boolean b => cases b <;> decide
    | undef => decide
  | operator => simp [texts]

/-- The words in the dump of a source are bare, but for its strings. -/
theorem Program.texts_of_parse {calls : StatementCalls} {source : String} {p : Program Span}
    (h : parse calls source = .ok p) : ∀ s ∈ p.toPart.texts,
      IsBare s.toList ∨ ∃ value, .literal (.string value) ∈ p.words ∧ s = "'" ++ value ++ "'" := by
  have hwrites : Writes (fun s => IsBare s.toList ∨
      ∃ value, .literal (.string value) ∈ p.words ∧ s = "'" ++ value ++ "'") p.nodes := by
    intro word hword s hs
    by_cases hstring : ∃ value, word = .literal (.string value)
    · obtain ⟨value, rfl⟩ := hstring
      exact .inr ⟨value, hword, List.mem_singleton.1 hs⟩
    · have hne : ∀ value, word ≠ .literal (.string value) := fun value heq => hstring ⟨value, heq⟩
      obtain ⟨kind, piece, back, hkind, hleads⟩ := exists_leads_of_parse h hword
      have hreadable := Word.readable_of_leads hleads hkind fun value heq => (hne value heq).elim
      exact .inl (Word.isWord_of_mem_texts hreadable hne s hs).isBare
  have hindented := p.toPart_wellIndented (fun s hs => .inl hs.isBare) hwrites
  intro s hs
  exact hindented.fine s (List.mem_append_left _ hs)

/-- **Layout loses no structure.**  A word, or a list whose words are bare, is read back from its
text without its line breaks and indentation, wherever they stand.  The words in the dump of a
source are bare, but for its strings. -/
theorem Form.read_format :
    (∀ s : String, IsBare s.toList → read? (Part.text s).format = some (.atom s)) ∧
    (∀ parts : List Part, (∀ s ∈ Part.textsOfAll parts, IsBare s.toList) →
      read? (Part.list parts).format = some (.list (Part.formsOfAll parts))) ∧
    ∀ (calls : StatementCalls) (source : String) (p : Program Span),
      parse calls source = .ok p → ∀ s ∈ p.toPart.texts,
        IsBare s.toList ∨ ∃ value, .literal (.string value) ∈ p.words ∧ s = "'" ++ value ++ "'" :=
  ⟨fun _ hs => Part.read?_format rfl (List.forall_mem_singleton.2 hs),
    fun _ h => Part.read?_format rfl h, fun _ _ _ => Program.texts_of_parse⟩

/-- Indentation that is not taken back, and some that was never made. -/
theorem Form.read_format_dedent :
    read? (Part.text "a").format = some (.atom "a") ∧
    read? (Part.list [.text "x", .dedent, .lineBreak, .indent, .list [.text "y", .indent,
      .lineBreak], .text "z"]).format = some (.list [.atom "x", .list [.atom "y"], .atom "z"]) ∧
    ∃ p, parse .default "f('a b', $x)" = .ok p ∧ p.toPart.texts = ["invoke", "f", "'a b'", "$x"] ∧
      ∀ s ∈ p.toPart.texts, IsBare s.toList ∨
        ∃ value, .literal (.string value) ∈ p.words ∧ s = "'" ++ value ++ "'" := by
  have hparse : (parse .default "f('a b', $x)").toOption.map (fun p => p.toPart.texts)
      = some ["invoke", "f", "'a b'", "$x"] := by
    decide +kernel
  obtain ⟨p, hp, htexts⟩ := exists_ok_of_map hparse
  exact ⟨read_format.1 "a" (by decide), read_format.2.1 _ (by decide), p, hp, htexts,
    read_format.2.2 .default _ p hp⟩

end CallGrammar
