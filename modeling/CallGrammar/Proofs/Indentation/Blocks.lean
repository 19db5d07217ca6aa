import CallGrammar.Proofs.Indentation

/-!
# CallGrammar.Proofs.Indentation.Blocks

The dump of a block is put together from the dumps of its statements.

1. A log of a layout tells apart what its pieces do not: words from line breaks, and at which
   level indentation is taken back (`Part.log`).
2. The log of a tree is `Steady`: it ends at the level at which it begins, never goes below it,
   and depends on it by so many levels at each line break.
3. So one more level puts two spaces behind each line feed of a line break, and changes nothing
   else (`Block.format_toPart`).
-/

namespace CallGrammar

variable {σ : Type}

namespace Part

/-! ## logs -/

/-- What happens when a part is laid out, with the level at which it happens. -/
inductive Event where
  | word (s : String)
  | lineBreak (level : Nat)
  | dedent (level : Nat)
  deriving DecidableEq

namespace Event

/-- The piece of text that the event leaves. -/
def piece? : Event → Option String
  | word s => some s
  | lineBreak level => some (breakPiece level)
  | dedent _ => none

/-- The same `k` levels deeper. -/
def deepen (k : Nat) : Event → Event
  | word s => word s
  | lineBreak level => lineBreak (level + k)
  | dedent level => dedent (level + k)

/-- Deeper by one depth and then by another is deeper by both. -/
@[simp] theorem deepen_comp (k l : Nat) : deepen l ∘ deepen k = deepen (k + l) := by
  funext e
  cases e <;> simp [deepen, Nat.add_assoc]

end Event

mutual

/-- What happens in a part that begins at the level, and the level at which it ends. -/
def log : Part → Nat → List Event × Nat
  | text s, level => ([.word s], level)
  | list parts, level =>
    let inner := logOfAll parts level
    (.word "(" :: inner.1 ++ [.word ")"], inner.2)
  | lineBreak, level => ([.lineBreak level], level)
  | indent, level => ([], level + 1)
  | dedent, level => ([.dedent level], level - 1)

/-- The same for parts that follow each other. -/
def logOfAll : List Part → Nat → List Event × Nat
  | [], level => ([], level)
  | part :: parts, level =>
    let first := part.log level
    let rest := logOfAll parts first.2
    (first.1 ++ rest.1, rest.2)

end

mutual

/-- The pieces of a part are those that its log leaves. -/
theorem pieces_eq_log : (part : Part) → (level : Nat) →
    part.pieces level = ((part.log level).1.filterMap Event.piece?, (part.log level).2)
  | text _, _ | lineBreak, _ | indent, _ | dedent, _ => rfl
  | list parts, level => by
    rw [pieces, piecesOfAll_eq_log parts level]
    simp [log, Event.piece?]

/-- The pieces of parts are those of their log. -/
theorem piecesOfAll_eq_log : (parts : List Part) → (level : Nat) →
    piecesOfAll level parts
      = ((logOfAll parts level).1.filterMap Event.piece?, (logOfAll parts level).2)
  | [], _ => rfl
  | part :: parts, level => by
    rw [piecesOfAll, pieces_eq_log part, piecesOfAll_eq_log parts, logOfAll,
      List.filterMap_append]

end

/-- So many levels deeper, a line break has twice as many more spaces. -/
theorem breakPiece_add (level k : Nat) :
    breakPiece (level + k) = breakPiece level ++ String.ofList (List.replicate (2 * k) ' ') := by
  rw [← String.toList_inj]
  simp [breakPiece, Nat.mul_add]

/-- The log of parts one after the other: the second begins at the level that the first leaves.
-/
theorem logOfAll_append (parts parts' : List Part) (level : Nat) :
    logOfAll (parts ++ parts') level
      = ((logOfAll parts level).1 ++ (logOfAll parts' (logOfAll parts level).2).1,
        (logOfAll parts' (logOfAll parts level).2).2) := by
  induction parts generalizing level with
  | nil => rfl
  | cons part parts ih => simp only [List.cons_append, logOfAll, ih, List.append_assoc]

theorem logOfAll_singleton (part : Part) : logOfAll [part] = part.log := by
  funext level
  simp [logOfAll]

/-! ## steady logs -/

/-- A log that does not depend on the level at which it begins, but for how deep it is. -/
structure Steady (log : Nat → List Event × Nat) : Prop where
  /-- It ends at the level at which it begins. -/
  ends : ∀ level, (log level).2 = level
  /-- It takes back no indentation but its own. -/
  above : ∀ level n, .dedent n ∈ (log level).1 → level < n
  /-- What happens is the same at each level, so many levels deeper. -/
  deepens : ∀ level, (log level).1 = (log 0).1.map (Event.deepen level)

/-- Indentation that comes in pairs is steady. -/
theorem WellIndented.steady {Fine : String → Prop} {parts : List Part}
    (h : WellIndented Fine parts) : Steady (logOfAll parts) := by
  induction h with
  | nil => exact ⟨fun _ => rfl, nofun, fun _ => rfl⟩
  | text => exact ⟨fun _ => rfl, by simp [logOfAll, log], fun _ => rfl⟩
  | lineBreak =>
    exact ⟨fun _ => rfl, by simp [logOfAll, log], by simp [logOfAll, log, Event.deepen]⟩
  | list _ ih =>
    rw [logOfAll_singleton]
    refine ⟨ih.ends, fun level n hn => ih.above level n ?_, fun level => ?_⟩
    · simpa [log] using hn
    · simp [log, ih.deepens level, Event.deepen]
  | @indented inner _ ih =>
    -- one level deeper inside, and back at the end
    have hlog (level : Nat) : logOfAll (.indent :: (inner ++ [.dedent])) level
        = ((logOfAll inner (level + 1)).1 ++ [.dedent (level + 1)], level) := by
      simp [logOfAll, logOfAll_append, log, ih.ends]
    refine ⟨fun level => by rw [hlog], fun level n hn => ?_, fun level => ?_⟩
    · rw [hlog, List.mem_append, List.mem_singleton, Event.dedent.injEq] at hn
      obtain hn | rfl := hn
      · exact Nat.lt_of_succ_lt (ih.above (level + 1) n hn)
      · exact Nat.lt_succ_self level
    · simp [hlog, ih.deepens (level + 1), ih.deepens 1, Event.deepen, Nat.add_comm]
  | @append parts parts' _ _ ih ih' =>
    refine ⟨fun level => ?_, fun level n hn => ?_, fun level => ?_⟩
    · rw [logOfAll_append, ih'.ends, ih.ends]
    · rw [logOfAll_append, ih.ends, List.mem_append] at hn
      exact hn.elim (ih.above level n) (ih'.above level n)
    · rw [logOfAll_append, logOfAll_append, ih.ends, ih.ends, List.map_append,
        ← ih.deepens, ← ih'.deepens]

/-! ## glyphs -/

/-- A character of a text; the line feeds of line breaks are told from those in words. -/
inductive Glyph where
  | char (c : Char)
  | lineFeed

namespace Glyph

def toChar : Glyph → Char
  | char c => c
  | lineFeed => '\n'

/-- The character, with two spaces behind the line feed of a line break. -/
def indented : Glyph → List Char
  | char c => [c]
  | lineFeed => ['\n', ' ', ' ']

end Glyph

/-- The glyphs of the piece that an event leaves. -/
def Event.glyphs : Event → List Glyph
  | word s => s.toList.map .char
  | lineBreak level => .lineFeed :: List.replicate (2 * level) (.char ' ')
  | dedent _ => []

/-- The glyphs of a log after the piece `before`, with the spaces between its pieces. -/
def glyphsAfter (before : String) : List Event → List Glyph
  | [] => []
  | e :: es =>
    match e.piece? with
    | none => glyphsAfter before es
    | some piece =>
      (if spaceBetween before piece then [.char ' '] else []) ++ e.glyphs ++ glyphsAfter piece es

/-- The glyphs of the text of a part. -/
def glyphs (part : Part) : List Glyph := glyphsAfter "(" (part.log 0).1

/-- The characters of an event are those of its piece. -/
theorem Event.map_glyphs {e : Event} {piece : String} (h : e.piece? = some piece) :
    e.glyphs.map Glyph.toChar = piece.toList := by
  cases e with
  | word s =>
    cases h
    simp [glyphs, Function.comp_def, Glyph.toChar]
  | lineBreak level =>
    cases h
    simp [glyphs, breakPiece, Glyph.toChar]
  | dedent level => cases h

/-- The characters of events are the text that their pieces make. -/
theorem map_glyphsAfter (before : String) (es : List Event) :
    (glyphsAfter before es).map Glyph.toChar = joinAfter before (es.filterMap Event.piece?) := by
  induction es generalizing before with
  | nil => rfl
  | cons e es ih =>
    cases hpiece : e.piece? with
    | none => simp only [glyphsAfter, List.filterMap_cons, hpiece, ih]
    | some piece =>
      have hspace : ([.char ' '] : List Glyph).map Glyph.toChar = [' '] := rfl
      simp only [glyphsAfter, List.filterMap_cons, hpiece, joinAfter, List.map_append, ih,
        e.map_glyphs hpiece]
      split <;> simp [hspace]

/-- The glyphs of a part are those of its text. -/
theorem format_eq_map_glyphs (part : Part) :
    part.format.toList = part.glyphs.map Glyph.toChar := by
  rw [format, String.toList_ofList, join_eq_joinAfter, pieces_eq_log, glyphs, map_glyphsAfter]

/-! ## one level deeper -/

/-- No space is put behind a line break. -/
theorem spaceBetween_after_breakPiece (level : Nat) (piece : String) :
    spaceBetween (breakPiece level) piece = false := by
  have hne : (breakPiece level).toList ≠ [] := by simp [breakPiece]
  have hlast := isBlank_of_mem_breakPiece (List.getLast_mem hne)
  simp [spaceBetween, List.getLast?_eq_some_getLast hne, hlast]

/-- One level deeper, a log leaves its glyphs with two spaces behind each line feed of a line
break. -/
theorem flatMap_glyphsAfter {before before' : String}
    (h : ∀ piece, spaceBetween before piece = spaceBetween before' piece) (es : List Event) :
    (glyphsAfter before es).flatMap Glyph.indented
      = joinAfter before' ((es.map (Event.deepen 1)).filterMap Event.piece?) := by
  induction es generalizing before before' with
  | nil => rfl
  | cons e es ih =>
    cases e with
    | word s =>
      have hspace : ([.char ' '] : List Glyph).flatMap Glyph.indented = [' '] := rfl
      have hword : (s.toList.map Glyph.char).flatMap Glyph.indented = s.toList := by
        simp [List.flatMap_map, Glyph.indented]
      simp only [glyphsAfter, Event.piece?, Event.glyphs, List.map_cons, Event.deepen,
        List.filterMap_cons, joinAfter, List.flatMap_append, hword, h s, ih fun _ => rfl]
      split <;> simp [hspace]
    | lineBreak level =>
      have hbreak : (Event.lineBreak level).glyphs.flatMap Glyph.indented
          = (breakPiece (level + 1)).toList := by
        simp [Event.glyphs, Glyph.indented, breakPiece, List.flatMap_cons, List.flatMap_replicate,
          List.replicate_succ, Nat.mul_add]
      -- behind a line break stands no space, however deep it is
      have hnone (piece : String) : spaceBetween (breakPiece level) piece
          = spaceBetween (breakPiece (level + 1)) piece := by
        rw [spaceBetween_after_breakPiece, spaceBetween_after_breakPiece]
      simp [glyphsAfter, Event.piece?, Event.deepen, joinAfter, spaceBetween_breakPiece, hbreak,
        ih hnone]
    | dedent level => exact ih h

/-- The text of pieces one after the other: the second is put behind the last of the first. -/
theorem joinAfter_append (before : String) (ps qs : List String) :
    joinAfter before (ps ++ qs) = joinAfter before ps ++ joinAfter (ps.getLastD before) qs := by
  induction ps generalizing before with
  | nil => rfl
  | cons p ps ih =>
    simp only [List.cons_append, joinAfter, ih, List.getLastD_cons, List.append_assoc]

/-- A line feed, two spaces and the text of the part, with two spaces added behind the line feed
of each of its line breaks. -/
def indentedLine (part : Part) : List Char :=
  '\n' :: ' ' :: ' ' :: part.glyphs.flatMap Glyph.indented

/-- Each part on a line of its own, one level deep, with the end of a block behind them. -/
theorem joinAfter_lines {Fine : String → Prop} {parts : List Part}
    (h : ∀ part ∈ parts, WellIndented Fine [part]) (before : String) :
    joinAfter before ((logOfAll (parts.flatMap fun part => [.lineBreak, part]) 1).1.filterMap
        Event.piece? ++ [breakPiece 0, ")"])
      = parts.flatMap indentedLine ++ ['\n', ')'] := by
  induction parts generalizing before with
  | nil =>
    have hbreak : (breakPiece 0).toList = ['\n'] := rfl
    simp [logOfAll, joinAfter, spaceBetween_breakPiece, spaceBetween_after_breakPiece, hbreak]
  | cons part parts ih =>
    obtain ⟨hpart, h⟩ := List.forall_mem_cons.1 h
    have hsteady := hpart.steady
    rw [logOfAll_singleton] at hsteady
    have hfirst (piece : String) :
        spaceBetween "(" piece = spaceBetween (breakPiece 1) piece := by
      rw [spaceBetween_opening, spaceBetween_after_breakPiece]
    have htext : joinAfter (breakPiece 1) ((part.log 1).1.filterMap Event.piece?)
        = part.glyphs.flatMap Glyph.indented := by
      rw [hsteady.deepens, glyphs, flatMap_glyphsAfter hfirst]
    have hbreak : (breakPiece 1).toList = ['\n', ' ', ' '] := rfl
    simp [logOfAll, log, hsteady.ends, Event.piece?, joinAfter, spaceBetween_breakPiece,
      joinAfter_append, htext, hbreak, ih h, indentedLine]

/-- The text of a block is put together from the texts of its parts. -/
theorem format_blockPart {Fine : String → Prop} {parts : List Part}
    (h : ∀ part ∈ parts, WellIndented Fine [part]) :
    (blockPart parts).format.toList
      = "(block".toList ++ parts.flatMap indentedLine ++ "\n)".toList := by
  have hlog : ((blockPart parts).log 0).1 = .word "(" :: .word "block" ::
      ((logOfAll (parts.flatMap fun part => [.lineBreak, part]) 1).1
        ++ [.dedent 1, .lineBreak 0, .word ")"]) := by
    simp [blockPart, log, logOfAll, logOfAll_append, (WellIndented.lines h).steady.ends]
  have hjoin := joinAfter_lines h "block"
  rw [format, String.toList_ofList, join_eq_joinAfter, pieces_eq_log, hlog]
  simp only [List.filterMap_cons, List.filterMap_append, List.filterMap_nil, Event.piece?,
    joinAfter, hjoin]
  rfl

end Part

/-! ## trees -/

theorem partsOfStmts_eq_map (ss : List (Stmt σ)) : partsOfStmts ss = ss.map Stmt.toPart := by
  induction ss with
  | nil => rfl
  | cons s ss ih => rw [partsOfStmts, ih, List.map_cons]

open CallGrammar.Part (Steady Event Glyph)

/-- **The layout of a tree is compositional.**  The log of a part tells its pieces, and its glyphs
tell its text.  The log of each tree is steady.  So the dump of a block is that of its
statements, each on a line of its own with two spaces more behind the line feed of each line
break; a line feed in a string is left alone. -/
theorem Block.format_toPart :
    (∀ (part : Part) (level : Nat),
      part.pieces level = ((part.log level).1.filterMap Event.piece?, (part.log level).2)) ∧
    (∀ level k : Nat, Part.breakPiece (level + k)
      = Part.breakPiece level ++ String.ofList (List.replicate (2 * k) ' ')) ∧
    (∀ part : Part, part.format.toList = part.glyphs.map Glyph.toChar) ∧
    ((∀ p : Program σ, Steady p.toPart.log) ∧ (∀ b : Block σ, Steady b.toPart.log) ∧
      (∀ l : Lambda σ, Steady l.toPart.log) ∧ (∀ s : Stmt σ, Steady s.toPart.log) ∧
      ∀ e : Expr σ, Steady e.toPart.log) ∧
    ∀ (span : σ) (stmts : List (Stmt σ)),
      (Block.toPart ⟨span, stmts⟩).format.toList
        = "(block".toList ++ stmts.flatMap (fun s => s.toPart.indentedLine) ++ "\n)".toList := by
  -- of the texts in a tree nothing is asked
  have hfixed : AdmitsWords fun _ => True := fun _ _ => trivial
  have hwrites (nodes : List (Node σ)) : Writes (fun _ => True) nodes := fun _ _ _ _ => trivial
  have hsteady {part : Part} (h : Part.WellIndented (fun _ => True) [part]) : Steady part.log := by
    rw [← Part.logOfAll_singleton]
    exact h.steady
  refine ⟨Part.pieces_eq_log, Part.breakPiece_add, Part.format_eq_map_glyphs,
    ⟨fun p => hsteady ?_, fun b => hsteady ?_, fun l => hsteady ?_, fun s => hsteady ?_,
      fun e => hsteady ?_⟩, fun span stmts => ?_⟩
  · exact p.toPart_wellIndented hfixed (hwrites _)
  · exact b.toPart_wellIndented hfixed (hwrites _)
  · exact l.toPart_wellIndented hfixed (hwrites _)
  · exact s.toPart_wellIndented hfixed (hwrites _)
  · exact e.toPart_wellIndented hfixed (hwrites _)
  · rw [Block.toPart, Part.format_blockPart (stmts_wellIndented hfixed stmts (hwrites _)),
      partsOfStmts_eq_map, List.flatMap_map]

example : (Block.toPart ⟨(), [.conditional () .ifTrue (.word () "a")
      ⟨(), [.expr () (.literal () (.string "x\ny"))]⟩ none, .expr () (.word () "b")]⟩).format
    = "(block\n  (if a\n    (then 'x\ny'))\n  b\n)" := by decide +kernel

end CallGrammar
