import CallGrammar.Proofs.Bare
import CallGrammar.Proofs.Exchange.Grammar

/-!
# CallGrammar.Proofs.Separators

Between statements any line breaks and semicolons do.  A run of them may be replaced by any
other one, also by none before the first statement and behind the last.

What a statement could take from the tokens after it is a token of its own, or an `elsif` or
`else` behind line breaks.  A separator is neither, and what comes behind the separators begins
a statement, or it ends the list; so the statements before the run stay as they were.
-/

namespace CallGrammar

/-! ## where statements begin and end -/

/-- The tokens end where the last of the statements does, and are none if there is none. -/
def EndWith (ts : List (Token Span)) (stmts : List (Stmt Span)) : Prop :=
  ts.getLast?.map (·.span.stop) = stmts.getLast?.map (·.span.stop)

/-- The tokens begin where the first of the statements does, and are none if there is none. -/
def BeginAt (ts : List (Token Span)) (stmts : List (Stmt Span)) : Prop :=
  ts.head?.map (·.span.start) = stmts.head?.map (·.span.start)

section

variable {t : Token Span} {ts us front front' back back' : List (Token Span)}
  {stmts xs ys : List (Stmt Span)} {s : Stmt Span}

theorem BeginAt.eq_nil (h : BeginAt ts []) : ts = [] := by simpa [BeginAt] using h

theorem EndWith.stmts_eq_nil (h : EndWith [] stmts) : stmts = [] :=
  List.getLast?_eq_none_iff.1 (Option.map_eq_none_iff.1 h.symm)

/-- More statements behind one. -/
theorem EndWith.cons (hs : Covers s.span ts) (h : EndWith us stmts) :
    EndWith (ts ++ us) (s :: stmts) := by
  obtain ⟨t, u, -, hu, hspan⟩ := hs
  unfold EndWith at h ⊢
  rw [List.getLast?_append, List.getLast?_cons]
  cases hus : us.getLast? with
  | none =>
    rw [hus, Option.map_none, eq_comm, Option.map_eq_none_iff] at h
    simp [h, hu, hspan]
  | some v =>
    rw [hus] at h
    obtain ⟨s', hs', hstop⟩ := Option.map_eq_some_iff.1 h.symm
    simp [hs', hstop]

/-- More tokens before the first do not change where they end. -/
theorem EndWith.prepend (h : EndWith us stmts) (hne : us ≠ []) (ts : List (Token Span)) :
    EndWith (ts ++ us) stmts := by
  unfold EndWith
  rw [List.getLast?_append_of_ne_nil ts hne]
  exact h

/-- What covers the first statement begins where it does. -/
theorem BeginAt.of_covers (hs : Covers s.span ts) (us : List (Token Span)) :
    BeginAt (ts ++ us) (s :: stmts) := by
  obtain ⟨t, u, ht, -, hspan⟩ := hs
  simp [BeginAt, ht, hspan]

/-- Where some statements end is one place among tokens in order. -/
theorem EndWith.unique (hs : Sorted (front ++ ts)) (heq : front ++ ts = front' ++ us)
    (h : EndWith front xs) (h' : EndWith front' xs) : front' = front := by
  unfold EndWith at h h'
  cases hx : xs.getLast? with
  | none =>
    rw [hx] at h h'
    have hfront : front = [] := by simpa using h
    have hfront' : front' = [] := by simpa using h'
    rw [hfront, hfront']
  | some s =>
    rw [hx] at h h'
    obtain ⟨t, ht, hstop⟩ := Option.map_eq_some_iff.1 h
    obtain ⟨t', ht', hstop'⟩ := Option.map_eq_some_iff.1 h'
    obtain ⟨as, rfl⟩ := List.getLast?_eq_some_iff.1 ht
    obtain ⟨as', rfl⟩ := List.getLast?_eq_some_iff.1 ht'
    have hmem : t ∈ as ++ [t] ++ ts := by simp
    have hmem' : t' ∈ as ++ [t] ++ ts := by rw [heq]; simp
    have hpos := hs.nonempty t hmem
    have hpos' := hs.nonempty t' hmem'
    obtain rfl : t = t' := hs.eq_of_overlap hmem hmem' (by omega) (by omega)
    rw [← List.append_cons] at heq hs
    rw [← List.append_cons] at heq
    rw [append_cons_inj_of_nodup hs.nodup heq]

/-- Where some statements begin is one place among tokens in order. -/
theorem BeginAt.unique (hs : Sorted (ts ++ back)) (heq : ts ++ back = us ++ back')
    (h : BeginAt back ys) (h' : BeginAt back' ys) : us = ts := by
  unfold BeginAt at h h'
  cases hy : ys.head? with
  | none =>
    rw [hy] at h h'
    have hback : back = [] := by simpa using h
    have hback' : back' = [] := by simpa using h'
    rw [hback, hback', List.append_nil, List.append_nil] at heq
    exact heq.symm
  | some s =>
    rw [hy] at h h'
    obtain ⟨t, ht, hstart⟩ := Option.map_eq_some_iff.1 h
    obtain ⟨t', ht', hstart'⟩ := Option.map_eq_some_iff.1 h'
    obtain ⟨bs, rfl⟩ := List.head?_eq_some_iff.1 ht
    obtain ⟨bs', rfl⟩ := List.head?_eq_some_iff.1 ht'
    have hmem : t ∈ ts ++ t :: bs := by simp
    have hmem' : t' ∈ ts ++ t :: bs := by rw [heq]; simp
    have hpos := hs.nonempty t hmem
    have hpos' := hs.nonempty t' hmem'
    obtain rfl : t = t' := hs.eq_of_overlap hmem hmem' (by omega) (by omega)
    exact append_cons_inj_of_nodup hs.nodup heq

end

/-! ## other separators -/

variable {context : Context Span} {after : List (Token Span)} {xs ys : List (Stmt Span)}

/-- A run of separators begins with a kind that ends a statement. -/
theorem headKind_separators {σ : Type} {run : List (Token σ)} (hrun : Separators run)
    (hne : run ≠ []) (ts : List (Token σ)) {k : Kind} (hk : headKind (run ++ ts) = some k) :
    k.endsStatement = true := by
  cases run with
  | nil => exact absurd rfl hne
  | cons t run =>
    obtain rfl : t.kind = k := Option.some.inj hk
    obtain ht | ht := Bool.or_eq_true_iff.1 hrun.head
    · rw [eq_of_beq ht]
      rfl
    · rw [eq_of_beq ht]
      rfl

theorem Kind.ne_openBracket_of_endsStatement {k : Kind} (h : k.endsStatement = true) :
    k ≠ .symbol .openBracket := by
  rintro rfl
  cases h

/-- A statement ends before other statements that begin with the same token, or with one that
ends it. -/
theorem Reads.calmer_of_statements {σ : Type} [Location σ] {context : Context σ}
    {us ts after : List (Token σ)} {stmts : List (Stmt σ)}
    (h : Reads context .statements ts after stmts)
    (hhead : (ts ++ after).head? = (us ++ after).head? ∨
      ∀ k, headKind (ts ++ after) = some k → k.endsStatement = true) :
    Calmer (us ++ after) (ts ++ after) where
  head k hk := by
    obtain hsame | hends := hhead
    · rw [headKind, hsame] at hk
      exact .inl hk
    · exact .inr (hends k hk)
  touches hk := by
    obtain hsame | hends := hhead
    · rw [headTouches, headTouches, hsame]
    · exact absurd rfl (Kind.ne_openBracket_of_endsStatement (hends _ hk))
  branch word hword hk := absurd hk (h.not_alternative hword)

/-- A list of no statements is read only before a closing brace, or at the end. -/
theorem Reads.closeBrace_of_noStatements {σ : Type} [Location σ] {context : Context σ}
    {ts after : List (Token σ)} (h : Reads context .statements ts after []) (k : Kind)
    (hk : headKind after = some k) : k = .symbol .closeBrace := by
  cases h with
  | noStatements _ hafter => exact hafter k hk

/-- Statements behind a run of separators begin with one of them, or end at once. -/
theorem Reads.endsStatement_of_separators {run back : List (Token Span)} {b : Bool}
    (h : Reads context .statements (run ++ Token.retouch b back) after ys)
    (hrun : Separators run) (hback : BeginAt back ys) (hne : ys ≠ [] → run ≠ []) (k : Kind)
    (hk : headKind (run ++ Token.retouch b back ++ after) = some k) : k.endsStatement = true := by
  by_cases hempty : run = []
  · obtain rfl : ys = [] := by
      by_contra hys
      exact hne hys hempty
    obtain rfl := hback.eq_nil
    subst hempty
    obtain rfl := h.closeBrace_of_noStatements k hk
    rfl
  · rw [List.append_assoc] at hk
    exact headKind_separators hrun hempty _ hk

/-- **Separators**: statements are parted by a run of separators between them, before them
or behind them, and any other run does as well. -/
theorem Reads.exists_separators {ts : List (Token Span)} (hs : Sorted ts)
    (h : Reads context .statements ts after (xs ++ ys)) :
    ∃ front run back, ts = front ++ (run ++ back) ∧ EndWith front xs ∧ BeginAt back ys ∧
      Separators run ∧ ∀ run' b, Separators run' → (xs ≠ [] → ys ≠ [] → run' ≠ []) →
        Reads context .statements (front ++ (run' ++ Token.retouch b back)) after (xs ++ ys) := by
  -- The induction is on the statements before the run; each of them ends before the new run as
  -- it did before the old one (`Reads.calmer_of_statements`).
  induction xs generalizing ts with
  | nil =>
    cases h with
    | noStatements hseps hafter =>
      refine ⟨[], ts, [], by simp, rfl, rfl, hseps, fun run' b hrun' _ => ?_⟩
      exact (Reads.noStatements hrun' hafter).of_eq (by simp [Token.retouch])
    | @moreStatements first rest seps ts us _ hseps hfirst hcomma hrest =>
      have hcovers : Covers first.span ts := hfirst.extends hs.right.left
      refine ⟨[], seps, ts ++ us, by simp, rfl, .of_covers hcovers us, hseps,
        fun run' b hrun' _ => ?_⟩
      rw [Token.retouch_append hfirst.opens.ne_nil]
      exact (Reads.moreStatements hrun' (hfirst.retouch b trivial) hcomma hrest).of_eq (by simp)
  | cons x xs ih =>
    cases h with
    | @moreStatements _ _ seps ts us _ hseps hfirst hcomma hrest =>
      have hcovers : Covers x.span ts := hfirst.extends hs.right.left
      have hts : ts ≠ [] := hfirst.opens.ne_nil
      obtain ⟨front, run, back, rfl, hfront, hback, hrun, hexchange⟩ := ih hs.right.right hrest
      refine ⟨seps ++ (ts ++ front), run, back, by simp,
        .prepend (.cons hcovers hfront) (List.append_ne_nil_of_left_ne_nil hts _) seps, hback, hrun,
        fun run' b hrun' hne => ?_⟩
      have hrest' := hexchange run' b hrun' fun _ => hne nofun
      have hcalmer : Calmer (front ++ (run ++ back) ++ after)
          (front ++ (run' ++ Token.retouch b back) ++ after) := by
        refine hrest'.calmer_of_statements ?_
        cases front with
        | cons t front => exact .inl rfl
        | nil =>
          obtain rfl := hfront.stmts_eq_nil
          exact .inr (hrest'.endsStatement_of_separators hrun' hback (hne nofun))
      have hstmts := Reads.moreStatements hseps (hfirst.before rfl hcalmer trivial)
        (hcalmer.head_ne hcomma nofun) hrest'
      exact hstmts.of_eq (by simp)

/-- The same, told where the statements end and begin. -/
theorem Reads.separators {front run back : List (Token Span)}
    (hs : Sorted (front ++ (run ++ back)))
    (h : Reads context .statements (front ++ (run ++ back)) after (xs ++ ys))
    (hfront : EndWith front xs) (hback : BeginAt back ys) :
    Separators run ∧ ∀ run' b, Separators run' → (xs ≠ [] → ys ≠ [] → run' ≠ []) →
      Reads context .statements (front ++ (run' ++ Token.retouch b back)) after (xs ++ ys) := by
  obtain ⟨front', run₁, back', heq, hfront', hback', hrun, hexchange⟩ := h.exists_separators hs
  obtain rfl := hfront.unique hs heq hfront'
  rw [← List.append_assoc] at hs
  rw [← List.append_assoc, ← List.append_assoc] at heq
  have hfronts := hback.unique hs heq hback'
  rw [← hfronts] at heq
  obtain rfl := List.append_cancel_left hfronts
  obtain rfl := List.append_cancel_left heq
  exact ⟨hrun, hexchange⟩

/-! ## source units -/

/-- A body is its statements between braces. -/
theorem Reads.statements_of_block {σ : Type} [Location σ] {context : Context σ}
    {construct : Construct} {b : Block σ} {opener closer : Token σ} {inner after : List (Token σ)}
    (h : Reads context (.block construct) (opener :: (inner ++ [closer])) after b) :
    Reads context .statements inner (closer :: after) b.stmts ∧
      ∀ inner', Reads context .statements inner' (closer :: after) b.stmts →
        Reads context (.block construct) (opener :: (inner' ++ [closer])) after b := by
  generalize hts : opener :: (inner ++ [closer]) = ts at h
  cases h with
  | block hopener hstmts hcloser =>
    obtain ⟨rfl, hinner⟩ := List.cons.inj hts
    obtain ⟨rfl, hlast⟩ := List.append_inj' hinner rfl
    obtain rfl := List.singleton_inj.1 hlast
    exact ⟨hstmts, fun inner' hinner => .block hopener hinner hcloser⟩

/-- The statements stand between the tokens before and after: all of them, or those of a body
between its braces. -/
inductive Program.Between (p : Program Span) :
    (before after : List (Token Span)) → List (Stmt Span) → Prop where
  | unit : Between p [] [] p.body.stmts
  | body {b : Block Span} {opener closer : Token Span} (before after : List (Token Span))
      (hin : p.Has (.block b)) (hopener : opener.kind = .symbol .openBrace)
      (hspan : b.span = Location.merge opener.span closer.span) :
      Between p (before ++ [opener]) (closer :: after) b.stmts

/-- The shape of a program is that of its statements, wherever the program itself is. -/
theorem Program.shape_eq_of_stmts {p q : Program Span} (h : p.body.stmts = q.body.stmts) :
    p.shape = q.shape := by
  obtain ⟨⟨_, stmts⟩⟩ := p
  obtain ⟨⟨_, _⟩⟩ := q
  obtain rfl : stmts = _ := h
  rfl

/-- **Separators are interchangeable**: let a source be accepted, and take from it what stands
between some statements `xs` and the statements `ys` behind them, of the source unit or of one
body (either may be none).  It is a run of line breaks and semicolons, and with any other run in
its place, which between statements is not empty, the tokens are read with the same tree up to
its spans; it does not matter whether the first token behind the run touches it. -/
theorem program_of_separators {calls : StatementCalls} {source : String} {p : Program Span}
    (h : parse calls source = .ok p) {before front run back after : List (Token Span)}
    {xs ys : List (Stmt Span)}
    (hsource : Token.significant (Token.ofText source)
      = before ++ (front ++ (run ++ back) ++ after))
    (hbetween : p.Between before after (xs ++ ys)) (hfront : EndWith front xs)
    (hback : BeginAt back ys) :
    Separators run ∧ ∀ {run' : List (Token Span)} {b : Bool} {q : Parser Span}, Separators run' →
      (xs ≠ [] → ys ≠ [] → run' ≠ []) → q.context.calls = calls → q.cursor.passed = [] →
      q.cursor.ahead.map Token.word
        = (before ++ (front ++ (run' ++ Token.retouch b back) ++ after)).map Token.word →
      ∃ v, q.program.1 = .ok v ∧ v.shape = p.shape := by
  have hs := Token.sorted_significant source
  have hreads := reads_of_parse h
  rw [hsource] at hs hreads
  generalize hstmts : xs ++ ys = stmts at hbetween
  cases hbetween with
  | unit =>
    rw [List.nil_append, List.append_nil] at hs hreads
    have hinner := hreads.statements_of_program
    rw [← hstmts] at hinner
    obtain ⟨hrun, hexchange⟩ := hinner.separators hs hfront hback
    refine ⟨hrun, fun {run' b q} hrun' hne hcalls hpassed hwords => ?_⟩
    obtain ⟨p', hp', hstmts'⟩ := (hexchange run' b hrun' hne).exists_program
    obtain ⟨v, hv, hshape⟩ :=
      Parser.exists_program_of_reads hp' hpassed hcalls (by simpa using hwords)
    exact ⟨v, hv, hshape.trans (Program.shape_eq_of_stmts (hstmts'.trans hstmts))⟩
  | @body b opener closer before after hin hopener hspan =>
    have htokens : ∀ inner : List (Token Span), before ++ [opener] ++ (inner ++ closer :: after)
        = before ++ opener :: ((inner ++ [closer]) ++ after) := by simp
    rw [htokens] at hs hreads
    have hrest : Sorted ((opener :: ((front ++ (run ++ back)) ++ [closer])) ++ after) := hs.right
    have hbody := hrest.left
    have hcovers : Covers b.span (opener :: ((front ++ (run ++ back)) ++ [closer])) :=
      hspan ▸ .brackets hbody
    have hkind : opener.kind ≠ .keyword .elsifWord := by rw [hopener]; nofun
    obtain ⟨hstands, hexchange⟩ := hreads.exchange (m := .block b) hs trivial hin hcovers hkind
    have hblock : Reads _ (.block .ifBody) _ after b := hstands.body hkind rfl
    obtain ⟨hinner, hclosed⟩ := hblock.statements_of_block
    rw [← hstmts] at hinner hclosed
    obtain ⟨hrun, hinside⟩ := hinner.separators hbody.tail.left hfront hback
    refine ⟨hrun, fun {run' touch q} hrun' hne hcalls hpassed hwords => ?_⟩
    have hblock' := hclosed _ (hinside run' touch hrun' hne)
    have hlast := lastPlace_append_of_ne_nil (List.cons_ne_nil closer [])
    have hp' := hexchange (front ++ (run' ++ Token.retouch touch back) ++ [closer])
      ((hlast (opener :: _)).trans (hlast (opener :: _)).symm) (.block rfl hblock')
    exact Parser.exists_program_of_reads hp' hpassed hcalls (by rw [← htokens]; exact hwords)

/-- The body of a conditional that is all of a source unit, if it has one branch. -/
def onlyBody? : Program Span → Option (Block Span)
  | ⟨⟨_, [.conditional _ _ _ body none]⟩⟩ => some body
  | _ => none

/-- The body that `onlyBody?` finds is a block of the program. -/
theorem has_of_onlyBody? {p : Program Span} {b : Block Span} (h : onlyBody? p = some b) :
    p.Has (.block b) := by
  unfold onlyBody? at h
  split at h
  · next place span sense condition _ =>
    cases h
    have hbody : Subtree.block b
        ∈ (Subtree.stmt (.conditional span sense condition b none)).children :=
      List.mem_cons_of_mem _ (List.mem_singleton_self _)
    exact ⟨_, List.mem_singleton_self _, .child hbody (.here _)⟩
  · cases h

/-- A semicolon for a line break, before an array that then touches it. -/
theorem program_of_separators_array : ∃ p v,
    parse .default "if $x \x7bf()\n[1]\x7d" = .ok p ∧
    parse .default "if $x \x7bf();[1]\x7d" = .ok v ∧ v.shape = p.shape := by
  have hfacts : (parse .default "if $x \x7bf()\n[1]\x7d").toOption.bind (fun p =>
      (onlyBody? p).map fun b => (b.span, (b.stmts.take 1).getLast?.map (·.span.stop),
        (b.stmts.drop 1).head?.map (·.span.start)))
      = some (⟨6, 15⟩, some 10, some 11) := by decide +kernel
  cases hp : parse .default "if $x \x7bf()\n[1]\x7d" with
  | error e =>
    rw [hp] at hfacts
    cases hfacts
  | ok p =>
    rw [hp] at hfacts
    obtain ⟨b, hb, hfacts⟩ := Option.map_eq_some_iff.1 hfacts
    obtain ⟨hspan, hfacts⟩ := Prod.mk.inj hfacts
    obtain ⟨hxs, hys⟩ := Prod.mk.inj hfacts
    let opener : Token Span := ⟨.symbol .openBrace, ⟨6, 7⟩, false⟩
    let closer : Token Span := ⟨.symbol .closeBrace, ⟨14, 15⟩, true⟩
    let front : List (Token Span) :=
      [⟨.name "f", ⟨7, 8⟩, true⟩, ⟨.symbol .openParen, ⟨8, 9⟩, true⟩,
        ⟨.symbol .closeParen, ⟨9, 10⟩, true⟩]
    let back : List (Token Span) :=
      [⟨.symbol .openBracket, ⟨11, 12⟩, false⟩, ⟨.integer "1", ⟨12, 13⟩, true⟩,
        ⟨.symbol .closeBracket, ⟨13, 14⟩, true⟩]
    have hbetween : p.Between ([⟨.keyword .ifWord, ⟨0, 2⟩, false⟩, ⟨.var "x", ⟨3, 5⟩, false⟩]
        ++ [opener]) [closer] (b.stmts.take 1 ++ b.stmts.drop 1) := by
      rw [List.take_append_drop]
      exact .body _ _ (has_of_onlyBody? hb) rfl hspan
    have htokens : Token.significant (Token.ofText "if $x \x7bf()\n[1]\x7d")
        = [⟨.keyword .ifWord, ⟨0, 2⟩, false⟩, ⟨.var "x", ⟨3, 5⟩, false⟩] ++ [opener]
          ++ (front ++ ([⟨.newline, ⟨10, 11⟩, true⟩] ++ back) ++ [closer]) := by decide +kernel
    obtain ⟨-, hexchange⟩ := program_of_separators hp htokens hbetween hxs.symm hys.symm
    have hsemicolon : Separators [(⟨.symbol .semicolon, ⟨10, 11⟩, true⟩ : Token Span)] := by
      simp [Separators, AllKinds]
    obtain ⟨v, hv, hshape⟩ := hexchange (b := true)
      (q := Parser.ofSource .default "if $x \x7bf();[1]\x7d") hsemicolon
      (fun _ _ => List.cons_ne_nil _ _) rfl rfl (by decide +kernel)
    exact ⟨p, v, rfl, hv, hshape⟩

end CallGrammar
