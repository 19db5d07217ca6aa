import CallGrammar.Proofs.Division
import CallGrammar.Proofs.Nesting
import CallGrammar.Proofs.Pieces

/-!
# CallGrammar.Proofs.CallText

A call written around sources that are expressions.  Each source stands on a line of its
own, so that a comment at its end does not reach what follows it; then its tokens, in the
list, are those it has alone, moved, and an expression that ends with the input ends as well
before a line break.
-/

namespace CallGrammar

/-! ## the text of a call -/

/-- Sources as arguments: a line break after each, and a comma before each but the first. -/
def argumentsText : List String → String
  | [] => ""
  | [source] => source ++ "\n"
  | source :: rest => source ++ "\n," ++ argumentsText rest

/-- A call on sources. -/
def callText (name : String) (sources : List String) : String :=
  name ++ "(" ++ argumentsText sources ++ ")"

/-- The expressions of sources as arguments, the first of them at the offset: each is moved
past the sources before it, their line breaks and their commas. -/
def placed (offset : Nat) : List (String × Expr Span) → List (Expr Span)
  | [] => []
  | (source, e) :: rest =>
    e.map (Span.shift offset) :: placed (offset + source.utf8ByteSize + 2) rest

/-- The source is the expression, up to its end. -/
def IsExpression (calls : StatementCalls) (source : String) (e : Expr Span) : Prop :=
  (Parser.ofSource calls source).expression.1 = .ok e ∧
    (Parser.ofSource calls source).expression.2.cursor.ahead = []

/-- A source with others behind it, a line break and a comma between them. -/
theorem argumentsText_cons (source : String) {rest : List String} (h : rest ≠ []) :
    argumentsText (source :: rest) = source ++ "\n," ++ argumentsText rest := by
  cases rest with
  | nil => exact absurd rfl h
  | cons => rfl

theorem toList_argumentsText_cons (source : String) {rest : List String} (h : rest ≠ []) :
    (argumentsText (source :: rest)).toList
      = source.toList ++ '\n' :: ',' :: (argumentsText rest).toList := by
  rw [argumentsText_cons source h, String.toList_append, String.toList_append, List.append_assoc]
  rfl

theorem utf8ByteSize_argumentsText_cons (source : String) {rest : List String} (h : rest ≠ []) :
    (argumentsText (source :: rest)).utf8ByteSize
      = source.utf8ByteSize + 2 + (argumentsText rest).utf8ByteSize := by
  rw [argumentsText_cons source h, String.utf8ByteSize_append, String.utf8ByteSize_append]
  rfl

/-! ## a source that is an expression -/

section

variable {calls calls' : StatementCalls} {source : String} {e : Expr Span}

/-- A phrase that is read up to the end of the input derives from all the tokens ahead. -/
theorem Reads.of_done {σ : Type} [Location σ] {context : Context σ} {p : Phrase σ} {n : Nat}
    {v : p.Value} {c d : Cursor σ} (hready : p.Ready c)
    (hrun : (p.parse n).run context c = .done v d) (hend : d.ahead = []) :
    Reads context p c.ahead [] v := by
  obtain ⟨ts, hts, hreads⟩ := (sound context n) p c v d hready hrun
  rw [hend] at hreads
  have htokens : c.ahead = ts := by rw [hts.1, hend, List.append_nil]
  exact hreads.of_eq htokens

/-- The source of an expression is read by the parser to its end. -/
theorem IsExpression.exists_done (h : IsExpression calls source e) :
    ∃ n c, ((Phrase.expression 0).parse n).run (Parser.ofSource calls source).context
      (.start (Token.significant (Token.ofText source))) = .done e c ∧ c.ahead = [] := by
  obtain ⟨hvalue, hend⟩ := h
  obtain ⟨c, hrun⟩ := Parser.done_of_read hvalue
  have hread : (Parser.ofSource calls source).expression
      = (.ok e, { Parser.ofSource calls source with cursor := c }) := Parser.read_of_done hrun
  rw [hread] at hend
  exact ⟨Parser.bound (Parser.ofSource calls source).cursor, c, hrun, hend⟩

/-- The tokens of the source derive the expression. -/
theorem IsExpression.reads (h : IsExpression calls source e) :
    Reads (Parser.ofSource calls source).context (.expression 0)
      (Token.significant (Token.ofText source)) [] e := by
  obtain ⟨n, c, hrun, hend⟩ := h.exists_done
  exact .of_done (p := .expression 0) trivial hrun hend

/-- The source of an expression has no faults. -/
theorem IsExpression.errors_eq_nil (h : IsExpression calls source e) :
    Token.errors (Token.ofText source) = [] := by
  rw [← Token.errors_significant]
  refine Token.errors_eq_nil.2 fun t ht fault hinvalid => ?_
  have hvalid := h.reads.valid t ht
  rw [hinvalid] at hvalid
  cases hvalid

/-- A source, and the same further on in another one, where more statement calls may be
known. -/
def Lockstep.shiftTo (n : Nat) (context : Context Span) {calls' : StatementCalls}
    (hcalls : ∀ name, name ∈ context.calls → name ∈ calls') : Lockstep Span Span where
  move := Span.shift n
  first := context
  second := ⟨context.finish.shift n, calls'⟩
  merge := (Lockstep.shift n context).merge
  finish := rfl
  calls := hcalls

/-- The moved tokens derive the moved expression. -/
theorem IsExpression.reads_shift (h : IsExpression calls source e)
    (hcalls : ∀ name, name ∈ calls → name ∈ calls') (n : Nat) :
    ∃ context : Context Span, context.calls = calls' ∧ Reads context (.expression 0)
      ((Token.significant (Token.ofText source)).map (Token.map (Span.shift n))) []
      (e.map (Span.shift n)) := by
  obtain ⟨m, c, hrun, hend⟩ := h.exists_done
  let s := Lockstep.shiftTo n (Parser.ofSource calls source).context hcalls
  have henters : (Phrase.expression 0 : Phrase Span).Enters .token none := rfl
  have hafter := s.follows (Nat.le_refl m) _ henters _ _
    (Cursor.alike_start s.move (Token.significant (Token.ofText source))) nofun
  have hfirst : ((Phrase.expression 0).parse m).run s.first _ = .done e c := hrun
  rw [hfirst] at hafter
  obtain ⟨d, hd, halike⟩ := hafter
  have hdend : d.ahead = [] := by
    have hahead := halike.2
    rw [hend] at hahead
    exact List.forall₂_nil_left_iff.1 hahead
  exact ⟨s.second, rfl, .of_done (p := .expression 0) trivial hd hdend⟩

end

/-! ## the tokens of a call -/

namespace Token

/-- A symbol that no longer one goes on with is a token, whatever follows. -/
theorem leads_symbol {s : Symbol} (h : s.goesOn = false) (back : List Char) :
    Leads (some (.symbol s)) s.text.toList back := by
  have hpiece := isPiece_symbol s
  cases htext : s.text.toList with
  | nil =>
    rw [htext] at hpiece
    cases hpiece
  | cons c cs =>
    rw [htext, isPiece_cons] at hpiece
    refine ⟨c, cs, rfl, ?_⟩
    cases back with
    | nil => rw [List.append_nil, hpiece]
    | cons d back =>
      have hstops := Rule.stops_of_isOver (Rule.isOver_symbol h) d
      rw [htext] at hstops
      rw [firstPiece_append hstops, hpiece]

/-- A line break is a token, whatever follows. -/
theorem leads_newline (back : List Char) : Leads (some .newline) ['\n'] back :=
  ⟨'\n', [], rfl, firstPiece_newline back⟩

/-- A name that is read alone is read before a parenthesis. -/
theorem leads_name {name : String} (h : (Kind.name name).LexesAlone) (back : List Char) :
    Leads (some (.name name)) name.toList ('(' :: back) := by
  obtain ⟨hpiece, c, cs, hspelling, hc⟩ := isPiece_of_lexesAlone rfl h
  have htext : name.toList = c :: cs := hspelling
  rw [hspelling, isPiece_cons] at hpiece
  refine ⟨c, cs, htext, ?_⟩
  rw [firstPiece_append (Rule.stops_atom hc (by decide)), hpiece]

theorem significant_cons {σ : Type} {t : Token σ} (h : t.kind.isComment = false)
    (ts : List (Token σ)) : significant (t :: ts) = t :: significant ts := by
  simp [significant, h]

/-- The tokens of a source without faults on a line of its own. -/
theorem significant_line {source : String} (h : errors (ofText source) = []) (offset : Nat)
    (touchable : Bool) (rest : List Char) :
    ∃ b, ∃ nl : Token Span, nl.kind = .newline ∧
      significant (scan 0 offset touchable (source.toList ++ '\n' :: rest))
        = retouch b ((significant (ofText source)).map (Token.map (Span.shift offset)))
          ++ nl :: significant (scan 0 (offset + source.utf8ByteSize + 1) false rest) := by
  have happart : Apart ('\n' :: rest) 0 source.toList := apart_newline h rest
  obtain ⟨b₁, hsource⟩ := scan_append_of_apart happart (Nat.zero_le _) offset touchable
  obtain ⟨b₂, hretouch⟩ := exists_retouch_scan 0 offset touchable false source.toList
  have hshift := scan_shift offset 0 0 false source.toList
  rw [Nat.zero_add] at hshift
  obtain ⟨b, hsignificant⟩ := exists_retouch_significant b₂
    ((scan 0 0 false source.toList).map (Token.map (Span.shift offset)))
  refine ⟨b, ⟨.newline, ⟨offset + source.utf8ByteSize, offset + source.utf8ByteSize + 1⟩, b₁⟩,
    rfl, ?_⟩
  rw [hsource, hretouch, hshift, byteLength_toList, ← List.singleton_append,
    (leads_newline rest).scan_token, significant_append, hsignificant, significant_map,
    significant_cons rfl]
  rfl

end Token

/-! ## the arguments of a call -/

section

variable {calls calls' : StatementCalls} {context : Context Span}

/-- An expression on a line of its own, before a comma or a parenthesis. -/
theorem IsExpression.exists_line {source : String} {e : Expr Span}
    (h : IsExpression calls source e) (hcalls : ∀ name, name ∈ calls → name ∈ calls')
    (offset : Nat) (touchable : Bool) (rest : List Char) :
    ∃ (ts : List (Token Span)) (nl : Token Span), nl.kind = .newline ∧
      Token.significant (Token.scan 0 offset touchable (source.toList ++ '\n' :: rest)) = ts
        ++ nl :: Token.significant (Token.scan 0 (offset + source.utf8ByteSize + 1) false rest) ∧
      ∀ (context : Context Span) (next : Token Span) (after : List (Token Span)),
        context.calls = calls' →
        next.kind = .symbol .comma ∨ next.kind = .symbol .closeParen →
        Reads context (.expression 0) ts (nl :: next :: after) (e.map (Span.shift offset)) := by
  obtain ⟨b, nl, hnl, htokens⟩ :=
    Token.significant_line h.errors_eq_nil offset touchable rest
  obtain ⟨context', hcontext', hreads⟩ := h.reads_shift hcalls offset
  refine ⟨_, nl, hnl, htokens, fun context next after hcontext hnext => ?_⟩
  have hbranch (word : Keyword) :
      headKindPastNewlines (next :: after) ≠ some (.keyword word) := by
    obtain hk | hk := hnext <;> simp [headKindPastNewlines, headKind, hk]
  have hbefore := hreads.before_newline (hcontext.trans hcontext'.symm) hnl
    (hbranch .elsifWord) (hbranch .elseWord) trivial
  exact hbefore.retouch b trivial

/-- A closing parenthesis at the end is the last token. -/
theorem Token.significant_closeParen (offset : Nat) (touchable : Bool) :
    ∃ closer : Token Span, closer.kind = .symbol .closeParen ∧ closer.span.stop = offset + 1 ∧
      significant (scan 0 offset touchable [')']) = [closer] := by
  have hscan := (leads_symbol (s := .closeParen) rfl []).scan_token offset touchable
  exact ⟨_, rfl, rfl, congrArg significant hscan⟩

/-- A comma is a token, and the next one touches it. -/
theorem Token.significant_comma (offset : Nat) (touchable : Bool) (rest : List Char) :
    ∃ comma : Token Span, comma.kind = .symbol .comma ∧
      significant (scan 0 offset touchable (',' :: rest))
        = comma :: significant (scan 0 (offset + 1) true rest) := by
  have hscan := (leads_symbol (s := .comma) rfl rest).scan_token offset touchable
  exact ⟨_, rfl, (congrArg significant hscan).trans (significant_cons rfl _)⟩

/-- The text of arguments and a closing parenthesis derives the arguments. -/
theorem elements_of_argumentsText {args : List (String × Expr Span)}
    (hargs : ∀ arg ∈ args, IsExpression calls arg.1 arg.2)
    (hcalls : ∀ name, name ∈ calls → name ∈ calls') (offset : Nat) (touchable : Bool) :
    ∃ (ts : List (Token Span)) (closer : Token Span), closer.kind = .symbol .closeParen ∧
      closer.span.stop = offset + (argumentsText (args.map (·.1))).utf8ByteSize + 1 ∧
      Token.significant (Token.scan 0 offset touchable
        ((argumentsText (args.map (·.1))).toList ++ [')'])) = ts ++ [closer] ∧
      ∀ context : Context Span, context.calls = calls' →
        Reads context (.elements .argumentList) ts [closer] (placed offset args) := by
  induction args generalizing offset touchable with
  | nil =>
    obtain ⟨closer, hcloser, hstop, hscan⟩ := Token.significant_closeParen offset touchable
    refine ⟨[], closer, hcloser, hstop, hscan, fun context _ => ?_⟩
    exact .noElements nofun fun k hk => (Option.some.inj hk).symm.trans hcloser
  | cons arg args ih =>
    obtain ⟨source, e⟩ := arg
    have harg : IsExpression calls source e := hargs (source, e) List.mem_cons_self
    have hline := harg.exists_line hcalls offset touchable
    cases args with
    | nil =>
      obtain ⟨ts, nl, hnl, htokens, hitem⟩ := hline [')']
      obtain ⟨closer, hcloser, hstop, hscan⟩ :=
        Token.significant_closeParen (offset + source.utf8ByteSize + 1) false
      rw [hscan] at htokens
      have htext : (argumentsText [source]).toList = source.toList ++ ['\n'] :=
        String.toList_append
      have hsize : (argumentsText [source]).utf8ByteSize = source.utf8ByteSize + 1 :=
        String.utf8ByteSize_append ..
      have hnewline : Newlines [nl] := .cons (beq_iff_eq.2 hnl) nofun
      refine ⟨[] ++ (ts ++ [nl]), closer, hcloser, ?_, ?_, fun context hcontext => ?_⟩
      · simp only [List.map_cons, List.map_nil, hsize, hstop]
        omega
      · simpa [htext] using htokens
      · have hitem := hitem context closer [] hcontext (.inr hcloser)
        refine .lastElement (nofun : Newlines []) hitem hnewline ?_ ?_ <;> simp [hcloser]
    | cons arg' args =>
      have hrest : ∀ arg ∈ arg' :: args, IsExpression calls arg.1 arg.2 :=
        fun arg harg => hargs arg (List.mem_cons_of_mem _ harg)
      obtain ⟨us, closer, hcloser, hstop, hscan, hreads⟩ :=
        ih hrest (offset + source.utf8ByteSize + 2) true
      generalize hmore : arg' :: args = more at *
      obtain ⟨ts, nl, hnl, htokens, hitem⟩ :=
        hline (',' :: ((argumentsText (more.map (·.1))).toList ++ [')']))
      obtain ⟨comma, hcomma, hcommaScan⟩ := Token.significant_comma
        (offset + source.utf8ByteSize + 1) false ((argumentsText (more.map (·.1))).toList ++ [')'])
      rw [hcommaScan, hscan] at htokens
      have hne : more.map (·.1) ≠ [] := by simp [← hmore]
      have hnewline : Newlines [nl] := .cons (beq_iff_eq.2 hnl) nofun
      refine ⟨[] ++ (ts ++ ([nl] ++ comma :: us)), closer, hcloser, ?_, ?_,
        fun context hcontext => ?_⟩
      · rw [List.map_cons, utf8ByteSize_argumentsText_cons source hne, hstop]
        omega
      · rw [List.map_cons, toList_argumentsText_cons source hne]
        simpa using htokens
      · have hitem := hitem context comma (us ++ [closer]) hcontext (.inl hcomma)
        exact .moreElements (nofun : Newlines []) hitem hnewline hcomma (hreads context hcontext)

/-- The text of a call is a name and what makes it a call. -/
theorem callOf_of_callText {name : String} (hname : (Kind.name name).LexesAlone)
    {args : List (String × Expr Span)} (hargs : ∀ arg ∈ args, IsExpression calls arg.1 arg.2)
    (hcalls : ∀ name, name ∈ calls → name ∈ calls') :
    ∃ (t : Token Span) (ts : List (Token Span)),
      Token.significant (Token.ofText (callText name (args.map (·.1)))) = t :: ts ∧
      t.kind = .name name ∧ t.span = ⟨0, name.utf8ByteSize⟩ ∧
      ∀ context : Context Span, context.calls = calls' →
        Reads context (.callOf ⟨name, t.span⟩) ts []
          (.call ⟨0, (callText name (args.map (·.1))).utf8ByteSize⟩ ⟨name, t.span⟩
            (placed (name.utf8ByteSize + 1) args) none) := by
  obtain ⟨ts, closer, hcloser, hstop, hscan, helements⟩ :=
    elements_of_argumentsText hargs hcalls (name.utf8ByteSize + 1) true
  have htext : (callText name (args.map (·.1))).toList = name.toList
      ++ '(' :: ((argumentsText (args.map (·.1))).toList ++ [')']) := by
    simp only [callText, String.toList_append, List.append_assoc]
    rfl
  have hsize : (callText name (args.map (·.1))).utf8ByteSize
      = name.utf8ByteSize + 1 + (argumentsText (args.map (·.1))).utf8ByteSize + 1 := by
    simp only [callText, String.utf8ByteSize_append]
    rfl
  generalize hrest : (argumentsText (args.map (·.1))).toList ++ [')'] = rest at htext hscan
  obtain ⟨opener, hopener, hopen⟩ : ∃ opener : Token Span, opener.kind = .symbol .openParen ∧
      Token.significant (Token.scan 0 name.utf8ByteSize true ('(' :: rest))
        = opener :: (ts ++ [closer]) := by
    have hparen :=
      (Token.leads_symbol (s := .openParen) rfl rest).scan_token name.utf8ByteSize true
    rw [← hscan]
    exact ⟨_, rfl, (congrArg Token.significant hparen).trans (Token.significant_cons rfl _)⟩
  refine ⟨⟨.name name, ⟨0, name.utf8ByteSize⟩, false⟩, opener :: (ts ++ [closer]), ?_, rfl, rfl,
    fun context hcontext => ?_⟩
  · rw [Token.ofText, htext, (Token.leads_name hname rest).scan_token, Token.byteLength_toList,
      Token.significant_cons rfl, Nat.zero_add]
    exact congrArg _ hopen
  · have hspan : (⟨0, (callText name (args.map (·.1))).utf8ByteSize⟩ : Span)
        = through ⟨0, name.utf8ByteSize⟩ (opener :: (ts ++ [closer]) ++ []) := by
      have hlast : (opener :: (ts ++ [closer]) ++ []).getLast? = some closer := by
        rw [List.append_nil, ← List.cons_append, List.getLast?_concat]
      rw [through, hlast]
      change _ = Span.merge _ _
      simp only [Span.merge, hsize, hstop, Nat.zero_min]
      congr 1
      omega
    have hcall : Reads context (.callOf ⟨name, ⟨0, name.utf8ByteSize⟩⟩) _ [] _ :=
      .callOf (.arguments hopener (helements context hcontext) hcloser)
        (.noLambda (by simp [headKind]) (by simp [headKind]))
    rw [hspan]
    exact hcall.of_eq (List.append_nil _).symm

end

/-- **Call text**: sources that are expressions, each on a line of its own, are the arguments
of a call: it is an expression, and as a source unit one statement; each argument is the
expression of its source, moved to its place. -/
theorem isExpression_callText {calls : StatementCalls} {name : String}
    (hname : (Kind.name name).LexesAlone) {args : List (String × Expr Span)}
    (hargs : ∀ arg ∈ args, IsExpression calls arg.1 arg.2) :
    let source := callText name (args.map (·.1))
    let whole : Span := ⟨0, source.utf8ByteSize⟩
    let callee : Ident Span := ⟨name, ⟨0, name.utf8ByteSize⟩⟩
    let values := placed (name.utf8ByteSize + 1) args
    IsExpression calls source (.call whole callee values none) ∧
      ∀ calls' : StatementCalls, (∀ name, name ∈ calls → name ∈ calls') →
        ∃ p, parse calls' source = .ok p ∧
          p.body.stmts = [.invoke whole callee values none] := by
  intro source whole callee values
  constructor
  · obtain ⟨t, ts, htokens, ht, hspan, hcall⟩ := callOf_of_callText hname hargs fun _ h => h
    have hword := Reads.call ht (hcall (Parser.ofSource calls source).context rfl)
    rw [hspan, ← htokens] at hword
    exact Parser.read_of_reads hword.name.expression_of_primary
  · intro calls' hcalls
    obtain ⟨t, ts, htokens, ht, hspan, hcall⟩ := callOf_of_callText hname hargs hcalls
    have hcall := hcall (Parser.ofSource calls' source).context rfl
    have hcallable : Reads (Parser.ofSource calls' source).context .callable (t :: (ts ++ [])) []
        (.statement (.invoke whole ⟨name, t.span⟩ values none)) :=
      .wholeCall ht hcall (.continued_end _) nofun
    rw [List.append_nil, ← htokens, hspan] at hcallable
    obtain ⟨p, hp, hstmts⟩ := (Reads.statements_single (.invocation hcallable)).exists_program
    exact ⟨p, Parser.program_of_reads hp, hstmts⟩

/-- The second argument ends in a comment, which the closing parenthesis is not part of. -/
theorem isExpression_callText_foo : ∃ e e', IsExpression .default "bar(1)" e ∧
    IsExpression .default "[2] # two" e' ∧
    callText "foo" ["bar(1)", "[2] # two"] = "foo(bar(1)\n,[2] # two\n)" ∧
    IsExpression .default "foo(bar(1)\n,[2] # two\n)" (.call ⟨0, 23⟩ ⟨"foo", ⟨0, 3⟩⟩
      [e.map (Span.shift 4), e'.map (Span.shift 12)] none) ∧
    ∃ p, parse .default "foo(bar(1)\n,[2] # two\n)" = .ok p ∧ p.body.stmts = [.invoke ⟨0, 23⟩
      ⟨"foo", ⟨0, 3⟩⟩ [e.map (Span.shift 4), e'.map (Span.shift 12)] none] := by
  have hfirst : (Parser.ofSource .default "bar(1)").expression.1.isOk = true ∧
      (Parser.ofSource .default "bar(1)").expression.2.cursor.ahead = [] := by decide +kernel
  have hsecond : (Parser.ofSource .default "[2] # two").expression.1.isOk = true ∧
      (Parser.ofSource .default "[2] # two").expression.2.cursor.ahead = [] := by decide +kernel
  obtain ⟨e, he⟩ := exists_of_isOk hfirst.1
  obtain ⟨e', he'⟩ := exists_of_isOk hsecond.1
  have hargs : ∀ arg ∈ [("bar(1)", e), ("[2] # two", e')], IsExpression .default arg.1 arg.2 := by
    simp only [List.forall_mem_cons]
    exact ⟨⟨he, hfirst.2⟩, ⟨he', hsecond.2⟩, nofun⟩
  obtain ⟨hexpression, hprogram⟩ :=
    @isExpression_callText .default "foo" (by decide) _ hargs
  exact ⟨e, e', ⟨he, hfirst.2⟩, ⟨he', hsecond.2⟩, rfl, hexpression, hprogram .default fun _ h => h⟩

/-- With fewer statement calls the call of an expression may be refused: here the argument holds a
statement that needs one. -/
theorem parse_callText_fewer :
    (Kind.name "f").LexesAlone ∧
    (∃ e, IsExpression .default "g() || \x7b notice 1, 2 \x7d" e) ∧
    parse .empty (callText "f" ["g() || \x7b notice 1, 2 \x7d"])
      = .error (.needsParentheses "notice" ⟨11, 22⟩) := by
  have hread : (Parser.ofSource .default "g() || \x7b notice 1, 2 \x7d").expression.1.isOk = true ∧
      (Parser.ofSource .default "g() || \x7b notice 1, 2 \x7d").expression.2.cursor.ahead = [] := by
    decide +kernel
  obtain ⟨e, he⟩ := exists_of_isOk hread.1
  have hrefused : refusal? (parse .empty (callText "f" ["g() || \x7b notice 1, 2 \x7d"]))
      = some (.needsParentheses "notice" ⟨11, 22⟩) := by decide +kernel
  refine ⟨by decide, ⟨e, he, hread.2⟩, ?_⟩
  cases hresult : parse .empty (callText "f" ["g() || \x7b notice 1, 2 \x7d"]) with
  | ok p =>
    rw [hresult] at hrefused
    cases hrefused
  | error e' =>
    rw [hresult] at hrefused
    exact congrArg Except.error (Option.some.inj hrefused)

end CallGrammar
