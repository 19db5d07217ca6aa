import CallGrammar.Proofs.Balance
import CallGrammar.Proofs.Reading.Steps

/-!
# CallGrammar.Proofs.Walk

What a function of the grammar does, one step after the other.  `Walk` relates two readings that
take the same steps, the second at other places and with another bound on nested calls.  It has
one constructor for each step of a `Parse`, and one for another phrase.

With each step goes what can be told of it from the function alone: the kind of the token that it
passes, how many groups are open, how far the reading has looked (`View`), and that a list is
refused which begins with a comma (`Rejects`).  So what holds of all steps holds of the whole
grammar, by an induction over `Walk`; and the functions are gone through once, in `Walk.Grammar`.
-/

namespace CallGrammar

variable {σ τ α β : Type}

/-! ## skipping -/

namespace Cursor

variable {p q : Kind → Bool}

theorem skip_cons_of_neg {t : Token σ} (h : p t.kind = false) (passed ts : List (Token σ)) :
    (Cursor.mk passed (t :: ts)).skip p = ⟨passed, t :: ts⟩ := by
  simp [Cursor.skip, h]

theorem skip_cons_of_pos {t : Token σ} (h : p t.kind = true) (passed ts : List (Token σ)) :
    (Cursor.mk passed (t :: ts)).skip p = (Cursor.mk (t :: passed) ts).skip p := by
  simp [Cursor.skip, h]

/-- Where the first token is none to skip, nothing is. -/
theorem skip_eq_self {c : Cursor σ} {k : Kind} (hk : c.kind? = some k) (hp : p k = false) :
    c.skip p = c := by
  obtain ⟨passed, ahead⟩ := c
  cases ahead with
  | nil => cases hk
  | cons t ts =>
    cases hk
    exact skip_cons_of_neg hp passed ts

/-- Tokens that would be skipped anyway may be skipped before. -/
theorem skip_skip (hpq : ∀ k, p k = true → q k = true) (c : Cursor σ) :
    (c.skip p).skip q = c.skip q := by
  obtain ⟨passed, ahead⟩ := c
  induction ahead generalizing passed with
  | nil => rfl
  | cons t ts ih =>
    cases ht : p t.kind with
    | false => rw [skip_cons_of_neg ht]
    | true => rw [skip_cons_of_pos ht, skip_cons_of_pos (hpq _ ht), ih]

/-- Line breaks are separators, so they may be skipped before. -/
theorem skipSeparators_skipNewlines (c : Cursor σ) :
    c.skipNewlines.skipSeparators = c.skipSeparators :=
  skip_skip (fun k hk => by simp [eq_of_beq hk]) c

/-- No token but a line break is under the cursor, or one of some other kind is. -/
theorem kind?_newline_or (c : Cursor σ) :
    (∀ k ∈ c.kind?, k = .newline) ∨ ∃ k, k ≠ .newline ∧ c.kind? = some k := by
  cases hk : c.kind? with
  | none => exact .inl nofun
  | some k =>
    by_cases hne : k = .newline
    · subst hne
      exact .inl fun _ hk' => (Option.some.inj hk').symm
    · exact .inr ⟨k, hne, rfl⟩

end Cursor

/-! ## where a reading stands -/

/-- How far a reading has looked from where it stands. -/
inductive View where
  /-- To the token under the cursor, which is between the bars of a lambda. -/
  | bars
  /-- To the token under the cursor. -/
  | token
  /-- To the first token from the cursor on that is no line break. -/
  | line

namespace View

/-- What may have been seen is under the cursor. -/
def isNear : View → Bool
  | line => false
  | _ => true

/-- Whoever has looked so far has looked no further than to `sight`. -/
def within : (view sight : View) → Bool
  | line, line => true
  | line, _ => false
  | _, _ => true

/-- The position up to which a reading has looked from the cursor. -/
def look : View → Cursor σ → Cursor σ
  | line, c => c.skipNewlines
  | _, c => c

/-- Who has looked only under the cursor stands where it looks. -/
theorem look_of_isNear {view : View} (h : view.isNear = true) (c : Cursor σ) : view.look c = c := by
  cases view with
  | bars | token => rfl
  | line => cases h

end View

namespace Phrase

/-- How far the phrase has looked where it ends: a conditional looks for another branch past line
breaks. -/
def sight : Phrase σ → View
  | statement | conditional _ | alternative _ => .line
  | _ => .token

theorem sight_ne_bars (p : Phrase σ) : p.sight ≠ .bars := by
  intro h
  cases p <;> cases h

/-- How many groups are open at least where the phrase stands. -/
def groups : Phrase σ → Nat
  | parameters _ | expression _ | operators _ _ | operand | suffixes _ | primary | arguments
  | optionalArguments | callOrWord | callOf _ | optionalLambda | lambda | lambdaBody _ _
  | block _ => 0
  | _ => 1

/-- Where the phrase can stand: parameters between bars, statements behind a look past line
breaks; a conditional goes past the word that opens it without a look at it, and a block is closed
by a brace. -/
def Enters : Phrase σ → View → Option Kind → Prop
  | parameters _, view, _ => view = .bars
  | statements, _, _ => True
  | conditional sense, view, known => view = .token ∧ ∃ k ∈ known, opensCondition sense k = true
  | block construct, view, _ => view = .token ∧ construct.closer = .closeBrace
  | _, view, _ => view = .token

end Phrase

/-! ## commas that are refused -/

/-- Behind a token of the kind the tokens go on with the comma where an element should begin: at
once behind a comma or an opener, behind a parenthesis after a name. -/
inductive Leads (comma : Token σ) : Kind → List (Token σ) → Prop where
  | symbol {s : Symbol} (hs : s = .comma ∨ s = .openBracket ∨ s = .openBrace)
      (rest : List (Token σ)) : Leads comma (.symbol s) (comma :: rest)
  | name (text : String) {paren : Token σ} (hparen : paren.kind = .symbol .openParen)
      (rest : List (Token σ)) : Leads comma (.name text) (paren :: comma :: rest)

/-- The reading stops at a stray comma at `place`, if at all. -/
inductive StopsAt (place : σ) : Outcome σ α → Prop where
  | stray (c : Cursor σ) : StopsAt place (.failed (.strayComma place) c)
  | exhausted : StopsAt place .exhausted

/-- Behind a token of the kind, the comma of `Leads` is refused. -/
def Rejects (k : Kind) (p : Parse σ α) : Prop :=
  ∀ (context : Context σ) (c : Cursor σ) (comma : Token σ), comma.kind = .symbol .comma →
    Leads comma k c.ahead → StopsAt comma.span (p.run context c)

/-- The kinds of tokens that `Leads` speaks of. -/
def Kind.isMarker : Kind → Bool
  | .symbol .comma | .symbol .openBracket | .symbol .openBrace | .name _ => true
  | _ => false

theorem Leads.isMarker {comma : Token σ} {k : Kind} {ts : List (Token σ)}
    (h : Leads comma k ts) : k.isMarker = true := by
  cases h with
  | symbol hs => obtain rfl | rfl | rfl := hs <;> rfl
  | name => rfl

/-- A valid token that is no bracket, and that `Leads` does not speak of. -/
def Kind.isOrdinary (k : Kind) : Bool := k.isInner && k.isValid && !k.isMarker

/-- An ordinary token opens and closes no group, is valid, and no comma is stray behind it. -/
theorem Kind.isOrdinary_iff {k : Kind} :
    k.isOrdinary = true ↔ (k.isInner = true ∧ k.isValid = true) ∧ k.isMarker = false := by
  simp [isOrdinary]

theorem Kind.isValid_of_opensGroup {k : Kind} (h : k.opensGroup = true) : k.isValid = true := by
  unfold Kind.opensGroup at h
  split at h <;> first | rfl | cases h

theorem Kind.isValid_of_isParameter {k : Kind} (h : k.isParameter = true) : k.isValid = true := by
  unfold Kind.isParameter at h
  split at h <;> first | rfl | cases h

theorem Kind.valid_of_closesGroup {k : Kind} (h : k.closesGroup = true) :
    k.isValid = true ∧ k.isMarker = false := by
  unfold Kind.closesGroup at h
  split at h <;> first | exact ⟨rfl, rfl⟩ | cases h

/-- Behind a token that no stray comma is behind, there is none to refuse. -/
theorem rejects_of_isMarker {k : Kind} (h : k.isMarker = false) (p : Parse σ α) : Rejects k p := by
  intro context c comma _ hleads
  rw [hleads.isMarker] at h
  cases h

/-- A reading that stops at a comma it begins with. -/
def StopsOnComma (p : Parse σ α) : Prop :=
  ∀ (context : Context σ) (c : Cursor σ) (comma : Token σ) (rest : List (Token σ)),
    comma.kind = .symbol .comma → c.ahead = comma :: rest →
      StopsAt comma.span (p.run context c)

/-- A reading that stops at a comma behind the parenthesis it begins with. -/
def StopsInCall (p : Parse σ α) : Prop :=
  ∀ (context : Context σ) (c : Cursor σ) (paren comma : Token σ) (rest : List (Token σ)),
    paren.kind = .symbol .openParen → comma.kind = .symbol .comma →
      c.ahead = paren :: comma :: rest → StopsAt comma.span (p.run context c)

/-- What stops on a comma refuses one behind a symbol. -/
theorem StopsOnComma.rejects {p : Parse σ α} (h : StopsOnComma p) (s : Symbol) :
    Rejects (.symbol s) p := by
  intro context c comma hcomma hleads
  generalize hahead : c.ahead = ts at hleads
  cases hleads with
  | symbol _ rest => exact h context c comma rest hcomma hahead

/-- What stops on a comma behind a parenthesis refuses one in a call. -/
theorem StopsInCall.rejects {p : Parse σ α} (h : StopsInCall p) (text : String) :
    Rejects (.name text) p := by
  intro context c comma hcomma hleads
  generalize hahead : c.ahead = ts at hleads
  cases hleads with
  | @name _ paren hparen rest => exact h context c paren comma rest hparen hcomma hahead

theorem StopsAt.bind {place : σ} {p : Parse σ α} {context : Context σ} {c : Cursor σ}
    (h : StopsAt place (p.run context c)) (q : α → Parse σ β) :
    StopsAt place ((p >>= q).run context c) := by
  rw [Parse.run_bind]
  generalize p.run context c = o at h ⊢
  cases h with
  | stray c' => exact .stray c'
  | exhausted => exact .exhausted

/-- What comes later does not matter, the first step has failed. -/
theorem StopsOnComma.bind {p : Parse σ α} (h : StopsOnComma p) (q : α → Parse σ β) :
    StopsOnComma (p >>= q) :=
  fun context c comma rest hcomma hahead => (h context c comma rest hcomma hahead).bind q

theorem StopsInCall.bind {p : Parse σ α} (h : StopsInCall p) (q : α → Parse σ β) :
    StopsInCall (p >>= q) :=
  fun context c paren comma rest hparen hcomma hahead =>
    (h context c paren comma rest hparen hcomma hahead).bind q

/-! ## steps -/

/-- Two readings take the same steps, the second at the places that `f` gives; phrases are read
with `n` and `m` nested calls.  Where they stand, the last token that was looked at is of the kind
`known`, if it is given, and `depth` groups are open; where they end, `floor` are. -/
inductive Walk [Location σ] [Location τ] (f : σ → τ) (n m floor : Nat) (sight : View)
    (g : α → β) : (known : Option Kind) → (depth : Nat) → (view : View) →
      Parse σ α → Parse τ β → Prop where
  | pure {known : Option Kind} {view : View} (v : α) (hview : view.within sight = true) :
      Walk f n m floor sight g known floor view (Pure.pure v) (Pure.pure (g v))
  | fail {known : Option Kind} {depth : Nat} {view : View} (e : ParseError σ)
      (hview : view.isNear = true) :
      Walk f n m floor sight g known depth view (Parse.fail e) (Parse.fail (e.map f))
  | unexpected {known : Option Kind} {depth : Nat} {view : View} (expected : Expectation)
      (hview : view.isNear = true) :
      Walk f n m floor sight g known depth view (Parse.unexpected expected)
        (Parse.unexpected expected)
  /-- A look at the token under the cursor.  In no group it may be a closer, and nothing tells one
  from the other there. -/
  | peek {known : Option Kind} {depth : Nat} {view : View} {q : Option Kind → Parse σ α}
      {q' : Option Kind → Parse τ β} (hview : view.isNear = true)
      (hq : ∀ k, Walk f n m floor sight g k depth view (q k) (q' k))
      (hclosers : depth = 0 → q (some (.symbol .closeBracket)) = q (some (.symbol .closeParen)))
      (hend : depth = 0 → Walk f n m floor sight g none depth view
        (q (some (.symbol .closeParen))) (q' (some (.symbol .closeParen)))) :
      Walk f n m floor sight g known depth view (Parse.peek >>= q) (Parse.peek >>= q')
  /-- A look at the token under the cursor, where a look past line breaks went before: it is what
  was seen then, or a line break. -/
  | peekAgain {known : Option Kind} {depth : Nat} {q : Option Kind → Parse σ α}
      {q' : Option Kind → Parse τ β}
      (hhere : ∀ k, k ≠ .newline →
        Walk f n m floor sight g (some k) (depth + 1) .token (q (some k)) (q' (some k)))
      (hpast : ∀ k, (∀ k' ∈ k, k' = .newline) →
        Walk f n m floor sight g none (depth + 1) .line (q k) (q' k)) :
      Walk f n m floor sight g known (depth + 1) .line (Parse.peek >>= q) (Parse.peek >>= q')
  | peekPastNewlines {known : Option Kind} {depth : Nat} {q : Option Kind → Parse σ α}
      {q' : Option Kind → Parse τ β}
      (hq : ∀ k, Walk f n m floor sight g k (depth + 1) .line (q k) (q' k)) :
      Walk f n m floor sight g known (depth + 1) .token (Parse.peekPastNewlines >>= q)
        (Parse.peekPastNewlines >>= q')
  /-- Only an opening bracket has to touch the token before it in both vectors or in neither. -/
  | touching {known : Option Kind} {depth : Nat} {q : Bool → Parse σ α} {q' : Bool → Parse τ β}
      (hknown : depth = 0 → known.isSome = true)
      (hq : ∀ b b', (known = some (.symbol .openBracket) → b' = b) →
        Walk f n m floor sight g known depth .token (q b) (q' b')) :
      Walk f n m floor sight g known depth .token (Parse.touching >>= q) (Parse.touching >>= q')
  | place {known : Option Kind} {depth : Nat} {view : View} {q : σ → Parse σ α}
      {q' : τ → Parse τ β}
      (hq : ∀ here, Walk f n m floor sight g known depth view (q here) (q' (f here))) :
      Walk f n m floor sight g known depth view (Parse.place >>= q) (Parse.place >>= q')
  | since {known : Option Kind} {depth : Nat} {view : View} (first : σ) {q : σ → Parse σ α}
      {q' : τ → Parse τ β}
      (hq : ∀ whole, Walk f n m floor sight g known depth view (q whole) (q' (f whole))) :
      Walk f n m floor sight g known depth view (Parse.since first >>= q)
        (Parse.since (f first) >>= q')
  /-- Several arguments without parentheses, which only some names take. -/
  | invoke {known : Option Kind} (name : String) (span : σ) (few : Bool) (v : α) :
      Walk f n m floor sight g known floor .token
        (Parse.takesArguments name >>= fun takes =>
          if few || takes then Pure.pure v else Parse.fail (.needsParentheses name span))
        (Parse.takesArguments name >>= fun takes =>
          if few || takes then Pure.pure (g v) else Parse.fail (.needsParentheses name (f span)))
  | skipNewlines {known : Option Kind} {depth : Nat} {view : View} {q : Unit → Parse σ α}
      {q' : Unit → Parse τ β} (hview : view.isNear = true)
      (hq : Walk f n m floor sight g none depth view (q ()) (q' ())) :
      Walk f n m floor sight g known depth view (Parse.skipNewlines >>= q)
        (Parse.skipNewlines >>= q')
  /-- Past the line breaks, to the token that was seen behind them. -/
  | skipLine {known : Option Kind} {depth : Nat} {q : Unit → Parse σ α} {q' : Unit → Parse τ β}
      (hq : Walk f n m floor sight g known depth .token (q ()) (q' ())) :
      Walk f n m floor sight g known depth .line (Parse.skipNewlines >>= q)
        (Parse.skipNewlines >>= q')
  | skipSeparators {known : Option Kind} {depth : Nat} {view : View} {q : Unit → Parse σ α}
      {q' : Unit → Parse τ β}
      (hq : Walk f n m floor sight g none depth .token (q ()) (q' ())) :
      Walk f n m floor sight g known depth view (Parse.skipSeparators >>= q)
        (Parse.skipSeparators >>= q')
  | advance {k : Kind} {depth : Nat} {q : Unit → Parse σ α} {q' : Unit → Parse τ β}
      (hk : k.isInner = true) (hvalid : k.isValid = true) (hrejects : Rejects k (q ()))
      (hq : Walk f n m floor sight g none depth .token (q ()) (q' ())) :
      Walk f n m floor sight g (some k) depth .token (Parse.advance >>= q) (Parse.advance >>= q')
  | opener {k : Kind} {depth : Nat} {q : Unit → Parse σ α} {q' : Unit → Parse τ β}
      (hk : k.opensGroup = true) (hrejects : Rejects k (q ()))
      (hq : Walk f n m floor sight g none (depth + 1) .token (q ()) (q' ())) :
      Walk f n m floor sight g (some k) depth .token (Parse.advance >>= q) (Parse.advance >>= q')
  | closer {k : Kind} {depth : Nat} {q : Unit → Parse σ α} {q' : Unit → Parse τ β}
      (hk : k.closesGroup = true)
      (hq : Walk f n m floor sight g none depth .token (q ()) (q' ())) :
      Walk f n m floor sight g (some k) (depth + 1) .token (Parse.advance >>= q)
        (Parse.advance >>= q')
  /-- The bar that opens parameters. -/
  | bar {depth : Nat} {q : Unit → Parse σ α} {q' : Unit → Parse τ β}
      (hq : Walk f n m floor sight g none depth .bars (q ()) (q' ())) :
      Walk f n m floor sight g (some (.symbol .pipe)) depth .token (Parse.advance >>= q)
        (Parse.advance >>= q')
  /-- Between bars a comma is no stray one. -/
  | parameter {k : Kind} {depth : Nat} {q : Unit → Parse σ α} {q' : Unit → Parse τ β}
      (hk : k.isParameter = true)
      (hq : Walk f n m floor sight g none depth .bars (q ()) (q' ())) :
      Walk f n m floor sight g (some k) depth .bars (Parse.advance >>= q) (Parse.advance >>= q')
  | phrase (p : Phrase σ) {known : Option Kind} {depth : Nat} {view : View}
      {q : p.Value → Parse σ α} {q' : (p.map f).Value → Parse τ β}
      (henters : p.Enters view known)
      (hq : ∀ v, Walk f n m floor sight g none (depth + p.groups) p.sight (q v)
        (q' (p.mapValue f v))) :
      Walk f n m floor sight g known (depth + p.groups) view (p.parse n >>= q)
        ((p.map f).parse m >>= q')

/-! ## steps that are made of others -/

namespace Parse

theorem bind_pure (p : Parse σ α) : p >>= Pure.pure = p := by
  refine Parse.ext (funext fun context => funext fun c => ?_)
  rw [run_bind]
  cases p.run context c <;> rfl

/-- Asking for a token is a look, and then a step or an error. -/
theorem expect_bind (k : Kind) (expected : Expectation) (q : σ → Parse σ β) :
    expect k expected >>= q = (do
      let found ← peek
      if found = some k then do
        let here ← place
        advance
        q here
      else unexpected expected) := by
  refine Parse.ext (funext fun context => funext fun c => ?_)
  rw [expect, run_bind_assoc, run_peek_bind, run_peek_bind]
  split <;> rfl

/-- Asking for a closer is a look, and then a step or one of two errors. -/
theorem closeAs_bind (construct : Construct) (expected : Expectation) (opener : σ)
    (q : σ → Parse σ β) :
    closeAs construct expected opener >>= q = (do
      match ← peek with
      | none => fail (.unterminated construct opener)
      | some _ => expect (.symbol construct.closer) expected >>= q) := by
  refine Parse.ext (funext fun context => funext fun c => ?_)
  rw [closeAs, run_bind_assoc, run_peek_bind, run_peek_bind]
  cases c.kind? <;> rfl

/-- Asking for a name is a look, and then a step or an error. -/
theorem name_bind (expected : Expectation) (q : Ident σ → Parse σ β) :
    name expected >>= q = (do
      match ← peek with
      | some (.name text) =>
        let here ← place
        advance
        q ⟨text, here⟩
      | _ => unexpected expected) := by
  refine Parse.ext (funext fun context => funext fun c => ?_)
  rw [name, run_bind_assoc, run_peek_bind, run_peek_bind]
  cases c.kind? with
  | none => rfl
  | some k => cases k <;> rfl

end Parse

namespace Walk

variable [Location σ] [Location τ] {f : σ → τ} {n m floor depth : Nat} {sight view : View}
  {g : α → β} {known : Option Kind}

/-- In a group, the token under the cursor is no closer of another one. -/
theorem peekInside {q : Option Kind → Parse σ α} {q' : Option Kind → Parse τ β}
    (hview : view.isNear = true)
    (hq : ∀ k, Walk f n m floor sight g k (depth + 1) view (q k) (q' k)) :
    Walk f n m floor sight g known (depth + 1) view (Parse.peek >>= q) (Parse.peek >>= q') :=
  .peek hview hq nofun nofun

theorem strayComma (hview : view.isNear = true) :
    Walk f n m floor sight g known depth view Parse.strayComma Parse.strayComma :=
  .place fun here => .fail (.strayComma here) hview

/-- A phrase with nothing behind it. -/
theorem last (p : Phrase σ) (henters : p.Enters view known)
    (hsight : p.sight.within sight = true) :
    Walk f n m (depth + p.groups) sight (p.mapValue f) known (depth + p.groups) view
      (p.parse n) ((p.map f).parse m) := by
  rw [← Parse.bind_pure (p.parse n), ← Parse.bind_pure ((p.map f).parse m)]
  exact .phrase p henters fun v => .pure v hsight

/-- A step over a token that no later step depends on. -/
theorem ordinary {k : Kind} {q : Unit → Parse σ α} {q' : Unit → Parse τ β}
    (hk : k.isOrdinary = true)
    (hq : Walk f n m floor sight g none depth .token (q ()) (q' ())) :
    Walk f n m floor sight g (some k) depth .token (Parse.advance >>= q)
      (Parse.advance >>= q') :=
  have ⟨⟨hinner, hvalid⟩, hmarker⟩ := Kind.isOrdinary_iff.1 hk
  .advance hinner hvalid (rejects_of_isMarker hmarker _) hq

/-- A step over the token asked for; another one is an error in both. -/
theorem expect {k : Kind} {expected : Expectation} {q : σ → Parse σ α}
    {q' : τ → Parse τ β} (hopen : depth = 0 → k.closesGroup = false)
    (hadvance : ∀ here, Walk f n m floor sight g (some k) depth .token
      (Parse.advance >>= fun _ => q here) (Parse.advance >>= fun _ => q' (f here))) :
    Walk f n m floor sight g known depth .token (Parse.expect k expected >>= q)
      (Parse.expect k expected >>= q') := by
  have hne {s : Symbol} (hdepth : depth = 0) (hs : (Kind.symbol s).closesGroup = true) :
      some (Kind.symbol s) ≠ some k := by
    rintro ⟨⟩
    rw [hopen hdepth] at hs
    cases hs
  rw [Parse.expect_bind, Parse.expect_bind]
  refine .peek rfl (fun found => ?_) (fun hdepth => ?_) fun hdepth => ?_
  · split
    · next hfound =>
      subst hfound
      exact .place hadvance
    · exact .unexpected expected rfl
  · rw [if_neg (hne hdepth rfl), if_neg (hne hdepth rfl)]
  · rw [if_neg (hne hdepth rfl), if_neg (hne hdepth rfl)]
    exact .unexpected expected rfl

/-- A symbol that is ordinary. -/
theorem symbol {s : Symbol} {q : σ → Parse σ α} {q' : τ → Parse τ β}
    (hs : (Kind.symbol s).isOrdinary = true)
    (hq : ∀ here, Walk f n m floor sight g none depth .token (q here) (q' (f here))) :
    Walk f n m floor sight g known depth .token (Parse.symbol s >>= q) (Parse.symbol s >>= q') :=
  expect (fun _ => (Kind.isInner_iff.1 (Kind.isOrdinary_iff.1 hs).1.1).2) fun here =>
    ordinary hs (hq here)

/-- A symbol that opens a group, with what comes behind it. -/
theorem symbolOpener {s : Symbol} {q : σ → Parse σ α} {q' : τ → Parse τ β}
    (hs : (Kind.symbol s).opensGroup = true) (hrejects : ∀ here, Rejects (.symbol s) (q here))
    (hq : ∀ here, Walk f n m floor sight g none (depth + 1) .token (q here) (q' (f here))) :
    Walk f n m floor sight g known depth .token (Parse.symbol s >>= q) (Parse.symbol s >>= q') := by
  refine expect (fun _ => ?_) fun here => .opener hs (hrejects here) (hq here)
  rw [← Bool.not_eq_true]
  intro hcloses
  rw [Kind.closesGroup_of_opensGroup hcloses] at hs
  cases hs

/-- A symbol that closes the group; with it, one group fewer is open. -/
theorem closeAs {construct : Construct} {expected : Expectation} {opener : σ}
    {q : σ → Parse σ α} {q' : τ → Parse τ β}
    (hcloser : (Kind.symbol construct.closer).closesGroup = true)
    (hq : ∀ here, Walk f n m floor sight g none depth .token (q here) (q' (f here))) :
    Walk f n m floor sight g known (depth + 1) .token
      (Parse.closeAs construct expected opener >>= q)
      (Parse.closeAs construct expected (f opener) >>= q') := by
  rw [Parse.closeAs_bind, Parse.closeAs_bind]
  refine peekInside rfl fun found => ?_
  split
  · exact .fail (.unterminated construct opener) rfl
  · exact expect nofun fun here => .closer hcloser (hq here)

theorem close {construct : Construct} {opener : σ} {q : σ → Parse σ α} {q' : τ → Parse τ β}
    (hcloser : (Kind.symbol construct.closer).closesGroup = true)
    (hq : ∀ here, Walk f n m floor sight g none depth .token (q here) (q' (f here))) :
    Walk f n m floor sight g known (depth + 1) .token (Parse.close construct opener >>= q)
      (Parse.close construct (f opener) >>= q') :=
  closeAs hcloser hq

/-- A name, which a list of arguments may follow. -/
theorem name {expected : Expectation} {q : Ident σ → Parse σ α} {q' : Ident τ → Parse τ β}
    (hrejects : ∀ text callee, Rejects (.name text) (q callee))
    (hq : ∀ callee, Walk f n m floor sight g none depth .token (q callee) (q' (callee.map f))) :
    Walk f n m floor sight g known depth .token (Parse.name expected >>= q)
      (Parse.name expected >>= q') := by
  rw [Parse.name_bind, Parse.name_bind]
  refine .peek rfl (fun found => ?_) (fun _ => rfl) fun _ => .unexpected expected rfl
  split
  · next text =>
    exact .place fun here => .advance rfl rfl (hrejects text _) (hq ⟨text, here⟩)
  · exact .unexpected expected rfl

end Walk

end CallGrammar
