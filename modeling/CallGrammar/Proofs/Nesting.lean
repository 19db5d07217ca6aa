import CallGrammar.Proofs.Concatenation
import Mathlib.Data.List.Infix

/-!
# CallGrammar.Proofs.Nesting

A source between the braces of a conditional or a lambda: the statements there are those
of the source, moved.

The opening text of such a frame ends in a brace, after which no token goes on; the only
thing that changes for the first token of the source is that it may touch the brace, and a
statement does not ask for that.
-/

namespace CallGrammar

variable {σ : Type}

/-! ## frames -/

/-- The places where braces hold statements. -/
inductive Frame where
  | ifBody | unlessBody | elsifBody | elseBody | lambdaBody
  deriving DecidableEq

namespace Frame

/-- The text before the statements. -/
def opening : Frame → String
  | ifBody => "if true \x7b"
  | unlessBody => "unless true \x7b"
  | elsifBody => "if true \x7b \x7d elsif true \x7b"
  | elseBody => "if true \x7b \x7d else \x7b"
  | lambdaBody => "f() || \x7b"

/-- The source in the frame, its closing brace on a line of its own. -/
def enclose (frame : Frame) (source : String) : String :=
  frame.opening ++ source ++ "\n\x7d"

/-- The statements that the frame holds. -/
def body? : Frame → Stmt σ → Option (List (Stmt σ))
  | ifBody, .conditional _ .ifTrue _ body _ => some body.stmts
  | unlessBody, .conditional _ .unlessTrue _ body _ => some body.stmts
  | elsifBody, .conditional _ .ifTrue _ _ (some ⟨_, [.conditional _ .ifTrue _ body _]⟩) =>
    some body.stmts
  | elseBody, .conditional _ .ifTrue _ _ (some body) => some body.stmts
  | lambdaBody, .invoke _ _ _ (some lambda) => some lambda.body.stmts
  | _, _ => none

/-- The kinds of the tokens before the statements. -/
def kinds : Frame → List Kind
  | ifBody => [.keyword .ifWord, .keyword .trueWord, .symbol .openBrace]
  | unlessBody => [.keyword .unlessWord, .keyword .trueWord, .symbol .openBrace]
  | elsifBody => [.keyword .ifWord, .keyword .trueWord, .symbol .openBrace, .symbol .closeBrace,
      .keyword .elsifWord, .keyword .trueWord, .symbol .openBrace]
  | elseBody => [.keyword .ifWord, .keyword .trueWord, .symbol .openBrace, .symbol .closeBrace,
      .keyword .elseWord, .symbol .openBrace]
  | lambdaBody => [.name "f", .symbol .openParen, .symbol .closeParen, .symbol .pipePipe,
      .symbol .openBrace]

/-! ## the tokens in a frame -/

/-- The opening of a frame is of the tokens that it says. -/
theorem kinds_opening (frame : Frame) :
    (Token.significant (Token.ofText frame.opening)).map (·.kind) = frame.kinds := by
  cases frame <;> decide

/-- No rule goes on behind the opening of a frame. -/
theorem isOver_of_suffix (frame : Frame) (w : List Char) (hne : w ≠ [])
    (hw : w <:+ frame.opening.toList) : Rule.isOver w = true := by
  have hall : frame.opening.toList.tails.all (fun w => w.isEmpty || Rule.isOver w) = true := by
    cases frame <;> decide
  have hover := List.all_eq_true.1 hall w ((List.mem_tails w _).2 hw)
  simpa [hne] using hover

end Frame

namespace Token

/-- The first token touches or does not. -/
theorem exists_retouch_self (ts : List (Token σ)) : ∃ b, ts = retouch b ts := by
  cases ts with
  | nil => exact ⟨false, rfl⟩
  | cons t ts => exact ⟨t.touching, rfl⟩

/-- Of tokens that touch otherwise, the parser gets the same ones. -/
theorem exists_retouch_significant (b : Bool) (ts : List (Token σ)) :
    ∃ b', significant (retouch b ts) = retouch b' (significant ts) := by
  cases ts with
  | nil => exact ⟨b, rfl⟩
  | cons t ts =>
    by_cases hcomment : t.kind.isComment = true
    · have hskip (b : Bool) : significant (⟨t.kind, t.span, b⟩ :: ts) = significant ts := by
        simp [significant, hcomment]
      change ∃ b', significant (⟨t.kind, t.span, b⟩ :: ts)
        = retouch b' (significant (⟨t.kind, t.span, t.touching⟩ :: ts))
      rw [hskip, hskip]
      exact exists_retouch_self (significant ts)
    · exact ⟨b, by simp [significant, retouch, hcomment]⟩

/-- Whether the first piece of a text can touch something matters to its first token only. -/
theorem exists_retouch_scan (skip offset : Nat) (touchable touchable' : Bool) (cs : List Char) :
    ∃ b, scan skip offset touchable cs = retouch b (scan skip offset touchable' cs) := by
  induction cs generalizing skip offset with
  | nil => exact ⟨false, rfl⟩
  | cons c cs ih =>
    cases skip with
    | succ skip => exact ih skip (offset + c.utf8Size)
    | zero =>
      cases hpiece : firstPiece c cs with
      | mk found n =>
        cases found with
        | none =>
          rw [scan_blank hpiece, scan_blank hpiece]
          exact exists_retouch_self _
        | some kind =>
          rw [scan_token hpiece, scan_token hpiece]
          exact ⟨touchable, rfl⟩

/-- The last line of a frame. -/
theorem scan_close (offset : Nat) (touchable : Bool) :
    ∃ nl closer : Token Span, nl.kind = .newline ∧ closer.kind = .symbol .closeBrace ∧
      scan 0 offset touchable ['\n', '\x7d'] = [nl, closer] := by
  have hbrace : firstPiece '\x7d' [] = (some (.symbol .closeBrace), 1) := by decide
  have hscan : scan 0 (offset + 1) false ['\x7d']
      = [⟨.symbol .closeBrace, ⟨offset + 1, offset + 1 + 1⟩, false⟩] := scan_token hbrace
  refine ⟨⟨.newline, ⟨offset, offset + 1⟩, touchable⟩,
    ⟨.symbol .closeBrace, ⟨offset + 1, offset + 1 + 1⟩, false⟩, rfl, rfl, ?_⟩
  rw [scan_token (firstPiece_newline _), ← hscan]
  rfl

/-- The tokens of a source without faults in a frame. -/
theorem significant_enclose (frame : Frame) {source : String} (h : errors (ofText source) = []) :
    ∃ b, ∃ nl closer : Token Span, nl.kind = .newline ∧ closer.kind = .symbol .closeBrace ∧
      significant (ofText (frame.enclose source)) = significant (ofText frame.opening)
        ++ (retouch b ((significant (ofText source)).map
          (Token.map (Span.shift frame.opening.utf8ByteSize))) ++ [nl, closer]) := by
  have htext : (frame.enclose source).toList
      = frame.opening.toList ++ (source.toList ++ ['\n', '\x7d']) := by
    rw [Frame.enclose, String.toList_append, String.toList_append, List.append_assoc]
    rfl
  have hshift := scan_shift frame.opening.utf8ByteSize 0 0 false source.toList
  have happend : Apart ['\n', '\x7d'] 0 source.toList := apart_newline h ['\x7d']
  have happend' := apart_of_isOver frame.isOver_of_suffix (source.toList ++ ['\n', '\x7d']) 0
  obtain ⟨b₁, hopening⟩ := scan_append_of_apart happend' (Nat.zero_le _) 0 false
  obtain ⟨b₂, hsource⟩ :=
    scan_append_of_apart happend (Nat.zero_le _) frame.opening.utf8ByteSize b₁
  obtain ⟨nl, closer, hnl, hcloser, hclose⟩ :=
    scan_close (frame.opening.utf8ByteSize + byteLength source.toList) b₂
  obtain ⟨b₃, hretouch⟩ := exists_retouch_scan 0 frame.opening.utf8ByteSize b₁ false source.toList
  obtain ⟨b, hsignificant⟩ := exists_retouch_significant b₃
    ((scan 0 0 false source.toList).map (Token.map (Span.shift frame.opening.utf8ByteSize)))
  rw [Nat.zero_add] at hshift
  rw [Nat.zero_add, byteLength_toList, hsource, hclose, hretouch, hshift, ← htext] at hopening
  refine ⟨b, nl, closer, hnl, hcloser, ?_⟩
  have hlast : significant [nl, closer] = [nl, closer] := by
    simp [significant, hnl, hcloser, Kind.isComment]
  rw [ofText, hopening, significant_append, significant_append, hsignificant, significant_map,
    hlast]
  rfl

end Token

/-! ## the statement that a frame is -/

section

variable [Location σ] {context : Context σ}

/-- A literal before an opening brace. -/
theorem Reads.literal_brace {t : Token σ} {value : Literal} {after : List (Token σ)}
    (ht : Literal.ofKind? t.kind = some value)
    (hafter : headKind after = some (.symbol .openBrace)) :
    Reads context (.expression 0) [t] after (.literal t.span value) := by
  have hsuffixes : Reads context (.suffixes (.literal t.span value)) [] after
      (.literal t.span value) :=
    .noSuffix (by simp [hafter]) (by simp [hafter])
  have hoperators : Reads context (.operators 0 (.literal t.span value)) [] after
      (.literal t.span value) := by
    refine .noOperator fun op hop => ?_
    rw [hafter] at hop
    cases hop
  have hoperand : Reads context .operand ([t] ++ []) after (.literal t.span value) :=
    .operand (.literal ht) hsuffixes
  exact .expression hoperand hoperators

/-- A conditional on `true`. -/
theorem Reads.conditional_true {sense : Sense} {t word : Token σ} {thenBranch : Block σ}
    {elseBranch : Option (Block σ)} {us vs after : List (Token σ)}
    (ht : opensCondition sense t.kind = true) (hword : word.kind = .keyword .trueWord)
    (hthen : Reads context (.block (Grammar.branchConstruct sense)) us (vs ++ after) thenBranch)
    (helse : Reads context (.alternative sense) vs after elseBranch) :
    ∃ span condition, Reads context (.conditional sense) (t :: word :: (us ++ vs)) after
      (.conditional span sense condition thenBranch elseBranch) := by
  have hbrace : headKind (us ++ (vs ++ after)) = some (.symbol .openBrace) := by
    obtain ⟨opener, us, rfl, hopener⟩ : BeginsWith isBrace us := hthen.opens
    unfold isBrace at hopener
    split at hopener
    · next hk => exact congrArg some hk
    · cases hopener
  have hcondition : Reads context (.expression 0) [word] (us ++ (vs ++ after))
      (.literal word.span (.boolean true)) :=
    .literal_brace (by rw [hword]; rfl) hbrace
  exact ⟨_, _, .conditional ht hcondition hthen helse⟩

/-- A conditional on `true` with one branch only. -/
theorem Reads.conditional_alone {sense : Sense} {t word : Token σ} {body : Block σ}
    {us : List (Token σ)} (ht : opensCondition sense t.kind = true)
    (hword : word.kind = .keyword .trueWord)
    (hbody : Reads context (.block (Grammar.branchConstruct sense)) us [] body) :
    ∃ span condition, Reads context (.conditional sense) (t :: word :: us) []
      (.conditional span sense condition body none) := by
  have hlast : Reads context (.alternative sense) [] [] none :=
    .noAlternative (fun _ => nofun) nofun
  obtain ⟨span, condition, h⟩ := Reads.conditional_true ht hword hbody hlast
  exact ⟨span, condition, h.of_eq (by simp)⟩

/-- The braces of a branch without statements. -/
theorem Reads.block_empty (construct : Construct) {opener closer : Token σ}
    {after : List (Token σ)} (hopener : opener.kind = .symbol .openBrace)
    (hcloser : closer.kind = .symbol .closeBrace) (hconstruct : construct.closer = .closeBrace) :
    ∃ span, Reads context (.block construct) [opener, closer] after ⟨span, []⟩ := by
  have hnothing : Reads context .statements [] (closer :: after) [] :=
    .noStatements nofun fun k hk => (Option.some.inj hk).symm.trans hcloser
  exact ⟨_, .block hopener hnothing (by rw [hcloser, hconstruct])⟩

/-- Parentheses without arguments. -/
theorem Reads.arguments_empty {opener closer : Token σ} {after : List (Token σ)}
    (hopener : opener.kind = .symbol .openParen) (hcloser : closer.kind = .symbol .closeParen) :
    Reads context .arguments [opener, closer] after [] := by
  have hnothing : Reads context (.elements .argumentList) [] (closer :: after) [] :=
    .noElements nofun fun k hk => (Option.some.inj hk).symm.trans hcloser
  exact .arguments hopener hnothing hcloser

/-- Whatever statements a frame holds, it is one statement. -/
theorem Frame.reads (frame : Frame) {head body : List (Token σ)} {closer : Token σ}
    {stmts : List (Stmt σ)} (hhead : head.map (·.kind) = frame.kinds)
    (hbody : Reads context .statements body [closer] stmts)
    (hcloser : closer.kind = .symbol .closeBrace) :
    ∃ stmt, Reads context .statement (head ++ (body ++ [closer])) [] stmt ∧
      frame.body? stmt = some stmts := by
  have hblock (construct : Construct) (opener : Token σ)
      (hopener : opener.kind = .symbol .openBrace) (hconstruct : construct.closer = .closeBrace) :
      Reads context (.block construct) (opener :: (body ++ [closer])) []
        ⟨Location.merge opener.span closer.span, stmts⟩ :=
    .block hopener hbody (by rw [hcloser, hconstruct])
  -- The kinds name the tokens of the opening; the derivation is built from the block outwards.
  cases frame
  all_goals simp only [kinds, List.map_eq_cons_iff, List.map_eq_nil_iff] at hhead
  case ifBody =>
    obtain ⟨t, _, rfl, ht, word, _, rfl, hword, opener, _, rfl, hopener, rfl⟩ := hhead
    obtain ⟨span, condition, hstmt⟩ := Reads.conditional_alone (by rw [ht]; rfl) hword
      (hblock (Grammar.branchConstruct .ifTrue) opener hopener rfl)
    exact ⟨_, .branching (.inl ⟨ht, rfl⟩) hstmt, rfl⟩
  case unlessBody =>
    obtain ⟨t, _, rfl, ht, word, _, rfl, hword, opener, _, rfl, hopener, rfl⟩ := hhead
    obtain ⟨span, condition, hstmt⟩ := Reads.conditional_alone (by rw [ht]; rfl) hword
      (hblock (Grammar.branchConstruct .unlessTrue) opener hopener rfl)
    exact ⟨_, .branching (.inr ⟨ht, rfl⟩) hstmt, rfl⟩
  case elsifBody =>
    obtain ⟨t, _, rfl, ht, word, _, rfl, hword, o, _, rfl, ho, c, _, rfl, hc, t', _, rfl, ht',
      word', _, rfl, hword', opener, _, rfl, hopener, rfl⟩ := hhead
    obtain ⟨span', condition', hnested⟩ := Reads.conditional_alone (by rw [ht']; rfl) hword'
      (hblock (Grammar.branchConstruct .ifTrue) opener hopener rfl)
    have helse := Reads.elsifAlternative (nofun : Newlines []) ht' hnested
    obtain ⟨empty, hthen⟩ := Reads.block_empty .ifBody ho hc rfl
    obtain ⟨span, condition, hstmt⟩ :=
      Reads.conditional_true (by rw [ht]; rfl) hword hthen helse
    exact ⟨_, .branching (.inl ⟨ht, rfl⟩) (hstmt.of_eq (by simp)), rfl⟩
  case elseBody =>
    obtain ⟨t, _, rfl, ht, word, _, rfl, hword, o, _, rfl, ho, c, _, rfl, hc, t', _, rfl, ht',
      opener, _, rfl, hopener, rfl⟩ := hhead
    have helse : Reads context (.alternative .ifTrue) _ [] _ :=
      .elseAlternative (nofun : Newlines []) ht' (hblock .elseBody opener hopener rfl)
    obtain ⟨empty, hthen⟩ := Reads.block_empty .ifBody ho hc rfl
    obtain ⟨span, condition, hstmt⟩ :=
      Reads.conditional_true (by rw [ht]; rfl) hword hthen helse
    exact ⟨_, .branching (.inl ⟨ht, rfl⟩) (hstmt.of_eq (by simp)), rfl⟩
  case lambdaBody =>
    obtain ⟨t, _, rfl, ht, o, _, rfl, ho, c, _, rfl, hc, pipes, _, rfl, hpipes, opener, _, rfl,
      hopener, rfl⟩ := hhead
    have hlambda := Reads.someLambda (.lambdaNoList hpipes
      (.lambdaBody (nofun : Newlines []) (hblock .lambdaBody opener hopener rfl)))
    have hcall : Reads context (.callOf ⟨"f", t.span⟩) _ ([] ++ []) _ :=
      .callOf (Reads.arguments_empty ho hc) hlambda
    have hstmt := Reads.wholeCall ht hcall (.continued_end _) nofun
    exact ⟨_, .invocation (hstmt.of_eq (by simp)), rfl⟩

end

/-! ## sources in frames -/

/-- **Nesting**: a source that is accepted is accepted in every frame, as one statement that
holds the statements of the source, moved. -/
theorem parse_enclose (frame : Frame) {calls : StatementCalls} {source : String}
    {p : Program Span} (h : parse calls source = .ok p) :
    ∃ q stmt, parse calls (frame.enclose source) = .ok q ∧ q.body.stmts = [stmt] ∧
      frame.body? stmt
        = some (p.body.stmts.map (Stmt.map (Span.shift frame.opening.utf8ByteSize))) := by
  obtain ⟨b, nl, closer, hnl, hcloser, htokens⟩ :=
    Token.significant_enclose frame (errors_of_parse h)
  have hsource := (reads_shift frame.opening.utf8ByteSize h).statements_of_program.retouch b trivial
  have hnothing : Reads (Parser.ofSource calls (frame.enclose source)).context .statements []
      [closer] [] := by
    refine .noStatements nofun fun k hk => ?_
    rw [← hcloser]
    exact (Option.some.inj hk).symm
  have hbody := hsource.statements_append hnothing hnl rfl
  obtain ⟨stmt, hstmt, hstmts⟩ := frame.reads frame.kinds_opening hbody hcloser
  obtain ⟨q, hq, hqstmts⟩ := (Reads.statements_single hstmt).exists_program
  refine ⟨q, stmt, Parser.program_of_reads (hq.of_eq ?_), hqstmts, ?_⟩
  · exact htokens.trans (by simp)
  · rw [hstmts, List.append_nil, Program.stmts_map]

/-- A comment at the end of the source does not reach the closing brace. -/
theorem parse_enclose_comment : ∃ p q stmt,
    parse .default "[1] # done" = .ok p ∧
    parse .default (Frame.lambdaBody.enclose "[1] # done") = .ok q ∧ q.body.stmts = [stmt] ∧
    Frame.lambdaBody.body? stmt = some (p.body.stmts.map
      (Stmt.map (Span.shift Frame.lambdaBody.opening.utf8ByteSize))) := by
  have hsource : (parse .default "[1] # done").isOk = true := by decide +kernel
  obtain ⟨p, hp⟩ := exists_of_isOk hsource
  obtain ⟨q, stmt, hq, hstmt, hstmts⟩ := parse_enclose .lambdaBody hp
  exact ⟨p, q, stmt, hp, hq, hstmt, hstmts⟩

end CallGrammar
