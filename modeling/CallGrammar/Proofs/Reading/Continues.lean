import CallGrammar.Proofs.Reading.Follow
import CallGrammar.Proofs.Reading.Sound
import CallGrammar.Proofs.Reading.Steps
import CallGrammar.Proofs.StatementCalls

/-!
# CallGrammar.Proofs.Reading.Continues

What may follow a derivation, and where it may stand.  Where a statement ends with the
input, it ends as well before a line break, with one condition on what comes after: a
conditional would go on with an `elsif` or `else`.  No statement begins with these, so
statements, a line break and statements are the statements of both.
-/

namespace CallGrammar

variable {σ : Type}

/-! ## what is seen of a line break -/

section

variable {nl : Token σ} {ts rest : List (Token σ)} {k : Kind}

/-- A line break after the tokens is no other kind of token. -/
theorem headKind_append_newline (hnl : nl.kind = .newline) (hk : k ≠ .newline) :
    headKind (ts ++ nl :: rest) = some k ↔ headKind ts = some k := by
  cases ts with
  | nil => simp [headKind, hnl, hk.symm]
  | cons t ts => rfl

/-- With a line break and more behind, the first kind past line breaks is one of the two. -/
theorem headKindPastNewlines_append_newline (hnl : nl.kind = .newline)
    (hrest : headKindPastNewlines rest ≠ some k)
    (hts : headKindPastNewlines ts ≠ some k) :
    headKindPastNewlines (ts ++ nl :: rest) ≠ some k := by
  induction ts with
  | nil => simpa [headKindPastNewlines, hnl] using hrest
  | cons t ts ih =>
    by_cases ht : t.kind = .newline
    · have hts : headKindPastNewlines ts ≠ some k := by
        simpa [headKindPastNewlines, ht] using hts
      simpa [headKindPastNewlines, ht] using ih hts
    · simpa [headKindPastNewlines, ht] using hts

end

/-! ## what is seen of the first token -/

namespace Token

/-- The tokens, of which the first one touches a token before it or not. -/
def retouch (b : Bool) : List (Token σ) → List (Token σ)
  | [] => []
  | t :: ts => { t with touching := b } :: ts

variable {b : Bool} {ts us : List (Token σ)}

/-- Whether tokens touch is a matter of the first. -/
theorem retouch_append (h : ts ≠ []) : retouch b (ts ++ us) = retouch b ts ++ us := by
  cases ts with
  | nil => exact absurd rfl h
  | cons t ts => rfl

@[simp] theorem headKind_retouch (b : Bool) (ts : List (Token σ)) :
    headKind (retouch b ts) = headKind ts := by
  cases ts <;> rfl

theorem allKinds_retouch {p : Kind → Bool} (h : AllKinds p ts) : AllKinds p (retouch b ts) := by
  cases ts with
  | nil => exact h
  | cons t ts => exact .cons h.head h.tail

end Token

/-- The phrases that begin with a token of which they do not ask whether it touches. -/
def Phrase.Leads : Phrase σ → Prop
  | statements | statement | conditional _ | callable | expression _ | operand | primary
  | callOrWord | lambda => True
  | _ => False

/-! ## a line break after a phrase -/

/-- A line break may be put behind the tokens `after` the phrase.  Right behind the phrase
it may not where the phrase would skip it and go on. -/
def Phrase.MayEndLine : Phrase σ → List (Token σ) → Prop
  | elements _, after | entries, after | statements, after | program, after => after ≠ []
  | _, _ => True

variable [Location σ] {context context' : Context σ} {nl : Token σ} {rest : List (Token σ)}

/-- A phrase derives the same with a line break behind the tokens after it, unless another
branch of a conditional comes next. -/
theorem Reads.before_newline {p : Phrase σ} {ts after : List (Token σ)} {v : p.Value}
    (h : Reads context p ts after v) (hcalls : context'.calls = context.calls)
    (hnl : nl.kind = .newline)
    (helsif : headKindPastNewlines rest ≠ some (.keyword .elsifWord))
    (helse : headKindPastNewlines rest ≠ some (.keyword .elseWord))
    (hend : p.MayEndLine after) : Reads context' p ts (after ++ nl :: rest) v := by
  have hcalmer : Calmer after (after ++ nl :: rest) := by
    refine ⟨fun k hk => ?_, fun hk => ?_, fun word hword hk => ?_⟩
    · by_cases hnewline : k = .newline
      · exact .inr (by rw [hnewline]; rfl)
      · exact .inl ((headKind_append_newline hnl hnewline).1 hk)
    · have hafter := (headKind_append_newline hnl (by nofun)).1 hk
      cases after with
      | nil => cases hafter
      | cons t after => rfl
    · by_contra hafter
      have hrest : headKindPastNewlines rest ≠ some (.keyword word) := by
        obtain rfl | rfl := hword
        · exact helsif
        · exact helse
      exact headKindPastNewlines_append_newline hnl hrest hafter hk
  have hsame (hne : after ≠ []) : headKind (after ++ nl :: rest) = headKind after := by
    cases after with
    | nil => exact absurd rfl hne
    | cons t after => rfl
  have hnonempty {k : Kind} (hk : headKind after = some k) : after ≠ [] := by
    rintro rfl
    cases hk
  refine h.before hcalls hcalmer ?_
  cases p with
  | parameters => exact fun hk => hsame (hnonempty hk)
  | elements => exact .inr (hsame hend)
  | entries => exact .inr (hsame hend)
  | statements => exact .inr (hsame hend)
  | callable =>
    cases v with
    | statement stmt => trivial
    | value expr => exact fun hk => hsame (hnonempty hk)
  | program => exact absurd h.after_eq_nil_of_program hend
  | _ => trivial

/-! ## statements one after the other -/

omit [Location σ] in
/-- Past separators no kind is seen that is not seen past line breaks. -/
theorem headKindPastNewlines_separators {seps ts : List (Token σ)} {k : Kind}
    (hseps : Separators seps) (h : headKindPastNewlines (seps ++ ts) = some k)
    (hk : k ≠ .symbol .semicolon) : headKindPastNewlines ts = some k := by
  induction seps with
  | nil => exact h
  | cons t seps ih =>
    obtain ht | ht := Bool.or_eq_true_iff.1 hseps.head
    · have hskip : headKindPastNewlines (t :: (seps ++ ts))
          = headKindPastNewlines (seps ++ ts) := by
        simp [headKindPastNewlines, ht]
      exact ih hseps.tail (hskip ▸ h)
    · have hkind : t.kind = .symbol .semicolon := eq_of_beq ht
      have hhead : headKindPastNewlines (t :: (seps ++ ts)) = some (.symbol .semicolon) := by
        simp [headKindPastNewlines, headKind, hkind]
      exact absurd (Option.some.inj (h.symm.trans hhead)) hk

/-- Statements do not go on a conditional before them. -/
theorem Reads.not_alternative {ts after : List (Token σ)} {stmts : List (Stmt σ)} {word : Keyword}
    (h : Reads context .statements ts after stmts)
    (hword : word = .elsifWord ∨ word = .elseWord) :
    headKindPastNewlines (ts ++ after) ≠ some (.keyword word) := by
  intro hhead
  cases h with
  | noStatements hseps hafter =>
    have hhead := headKindPastNewlines_separators hseps hhead nofun
    cases after with
    | nil => cases hhead
    | cons t after =>
      have ht : t.kind = .symbol .closeBrace := hafter _ rfl
      simp [headKindPastNewlines, headKind, ht] at hhead
  | @moreStatements _ _ seps ts us _ hseps hfirst =>
    rw [List.append_assoc] at hhead
    have hhead := headKindPastNewlines_separators hseps hhead nofun
    obtain ⟨t, vs, rfl, ht⟩ : BeginsWith beginsStatement ts := hfirst.opens
    have hne : t.kind ≠ .newline := fun hk => by rw [hk] at ht; cases ht
    have hkind : t.kind = .keyword word := by
      simpa [headKindPastNewlines, headKind, hne] using hhead
    rw [hkind] at ht
    obtain rfl | rfl := hword <;> cases ht

/-- More separators before statements change nothing. -/
theorem Reads.separated {seps ts after : List (Token σ)} {stmts : List (Stmt σ)}
    (hseps : Separators seps) (h : Reads context .statements ts after stmts) :
    Reads context .statements (seps ++ ts) after stmts := by
  cases h with
  | noStatements hseps' hafter => exact .noStatements (hseps.append hseps') hafter
  | moreStatements hseps' hfirst hcomma hrest =>
    rw [← List.append_assoc]
    exact .moreStatements (hseps.append hseps') hfirst hcomma hrest

/-- **Concatenation**: the statements of a whole vector, a line break and more statements
are the statements of both. -/
theorem Reads.statements_append {ts us after : List (Token σ)} {stmts stmts' : List (Stmt σ)}
    (h : Reads context .statements ts [] stmts) (h' : Reads context' .statements us after stmts')
    (hnl : nl.kind = .newline) (hcalls : context'.calls = context.calls) :
    Reads context' .statements (ts ++ nl :: us) after (stmts ++ stmts') := by
  -- Where the first statements end, the line break is one more separator before the others.
  induction stmts generalizing ts with
  | nil =>
    cases h with
    | noStatements hseps hafter =>
      have hseparator : Separators [nl] := by simp [Separators, AllKinds, hnl]
      have hseps : Separators (ts ++ [nl]) := hseps.append hseparator
      rw [List.append_cons]
      exact h'.separated hseps
  | cons first stmts ih =>
    cases h with
    | @moreStatements _ _ seps ts us' _ hseps hfirst hcomma hrest =>
      have hfirst := hfirst.before_newline hcalls hnl (h'.not_alternative (.inl rfl))
        (h'.not_alternative (.inr rfl)) trivial
      rw [List.append_nil] at hfirst hcomma
      rw [List.append_assoc, List.append_assoc]
      refine .moreStatements hseps ?_ ?_ (ih hrest)
      · simpa using hfirst
      · rw [List.append_assoc, List.cons_append]
        exact mt (headKind_append_newline hnl (by nofun)).1 hcomma

/-- A vector that is one statement. -/
theorem Reads.statements_single {ts : List (Token σ)} {stmt : Stmt σ}
    (h : Reads context .statement ts [] stmt) : Reads context .statements ts [] [stmt] := by
  have hnothing : Reads context .statements [] [] [] := .noStatements nofun nofun
  have hstmts : Reads context .statements ([] ++ (ts ++ [])) [] [stmt] :=
    .moreStatements nofun h nofun hnothing
  exact hstmts.of_eq (by simp)

/-! ## another first token -/

/-- A phrase that does not ask whether its first token touches derives the same if it does. -/
theorem Reads.retouch {p : Phrase σ} {ts after : List (Token σ)} {v : p.Value}
    (h : Reads context p ts after v) (b : Bool) (hleads : p.Leads) :
    Reads context p (Token.retouch b ts) after v := by
  induction h with
  | expression hleft hrest ihleft _ =>
    rw [Token.retouch_append hleft.opens.ne_nil]
    exact .expression (ihleft trivial) hrest
  | sign ht hinner _ => exact .sign ht hinner
  | operand hfirst hrest ihfirst _ =>
    rw [Token.retouch_append hfirst.opens.ne_nil]
    exact .operand (ihfirst trivial) hrest
  | var ht => exact .var ht
  | reference ht => exact .reference ht
  | literal ht => exact .literal ht
  | name _ ih => exact .name (ih trivial)
  | array hopener hitems hcloser _ => exact .array hopener hitems hcloser
  | hash hopener hnl hfound hcloser _ => exact .hash hopener hnl hfound hcloser
  | parentheses hopener hnl hinner hnl' hcloser _ =>
    exact .parentheses hopener hnl hinner hnl' hcloser
  | word ht hafter => exact .word ht hafter
  | call ht hcall _ => exact .call ht hcall
  | lambdaNoList ht hbody _ => exact .lambdaNoList ht hbody
  | lambda hopener hparams hcloser hbody _ _ => exact .lambda hopener hparams hcloser hbody
  | noStatements hseps hafter => exact .noStatements (Token.allKinds_retouch hseps) hafter
  | @moreStatements _ _ seps _ _ _ hseps hfirst hcomma hrest ihfirst _ =>
    by_cases hne : seps = []
    · subst hne
      rw [List.nil_append, Token.retouch_append hfirst.opens.ne_nil]
      exact .moreStatements hseps (ihfirst trivial) hcomma hrest
    · rw [Token.retouch_append hne]
      exact .moreStatements (Token.allKinds_retouch hseps) hfirst hcomma hrest
  | branching ht _ ih => exact .branching ht (ih trivial)
  | invocation _ ih => exact .invocation (ih trivial)
  | callableValue hcallable hstmt ih _ =>
    rw [Token.retouch_append hcallable.opens.ne_nil]
    exact .callableValue (ih trivial) hstmt
  | value hname hexpr hstmt ih _ =>
    rw [Token.retouch_append hexpr.opens.ne_nil]
    exact .value (by simpa using hname) (ih trivial) hstmt
  | conditional ht hcondition hthen helse _ _ _ =>
    exact .conditional ht hcondition hthen helse
  | wholeCall ht hcall hrest hafter _ _ => exact .wholeCall ht hcall hrest hafter
  | callValue ht hcall hrest hwhole _ _ => exact .callValue ht hcall hrest hwhole
  | bareCall ht hbegins hargs hcount _ => exact .bareCall ht hbegins hargs hcount
  | wordValue ht hparen hbegins hrest _ => exact .wordValue ht hparen hbegins hrest
  | _ => exact hleads.elim

/-! ## source units -/

/-- The tokens of a source unit are statements. -/
theorem Reads.statements_of_program {ts after : List (Token σ)} {p : Program σ}
    (h : Reads context .program ts after p) : Reads context .statements ts [] p.body.stmts := by
  cases h with
  | noProgram hstmts => exact hstmts
  | program hstmts => exact hstmts

/-- Statements make a source unit. -/
theorem Reads.exists_program {ts : List (Token σ)} {stmts : List (Stmt σ)}
    (h : Reads context .statements ts [] stmts) :
    ∃ p, Reads context .program ts [] p ∧ p.body.stmts = stmts := by
  cases stmts with
  | nil => exact ⟨_, .noProgram h, rfl⟩
  | cons first rest => exact ⟨_, .program h nofun, rfl⟩

/-- A source, and the same further on in another one. -/
def Lockstep.shift (n : Nat) (context : Context Span) : Lockstep Span Span where
  move := Span.shift n
  first := context
  second := ⟨context.finish.shift n, context.calls⟩
  merge a b := by
    change Span.shift n (Span.merge a b) = Span.merge (Span.shift n a) (Span.shift n b)
    simp only [Span.shift, Span.merge, Nat.add_min_add_right, Nat.add_max_add_right]
  finish := rfl
  calls _ h := h

/-- The tokens of a source that is accepted derive the moved tree further on. -/
theorem reads_shift {calls : StatementCalls} {source : String} {p : Program Span} (n : Nat)
    (h : parse calls source = .ok p) :
    Reads ⟨(Parser.ofSource calls source).context.finish.shift n, calls⟩ .program
      ((Token.significant (Token.ofText source)).map (Token.map (Span.shift n))) []
      (p.map (Span.shift n)) := by
  have hresult := (Lockstep.shift n (Parser.ofSource calls source).context).program_result
    (p := Parser.ofSource calls source)
    (q := ⟨_, .start
      ((Token.significant (Token.ofText source)).map (Token.map (Span.shift n)))⟩)
    rfl rfl (Cursor.alike_start _ _)
  have hparse : (Parser.ofSource calls source).program.1 = .ok p := h
  obtain ⟨v, hv, hmoved⟩ | ⟨e, he, -⟩ := hresult
  · rw [hparse] at hv
    cases hv
    exact Parser.reads_of_program hmoved
  · rw [hparse] at he
    cases he

end CallGrammar
