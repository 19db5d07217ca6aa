import CallGrammar.Proofs.Progress
import CallGrammar.Proofs.StatementCalls
import CallGrammar.Proofs.Twin

/-!
# CallGrammar.Proofs.Twin.Lists

The arguments of a call and the elements of an array are read by different loops, and are one
kind of list.  Whatever stands between the brackets, as long as its own brackets match, the two
readings end alike: with the same expressions, or with errors of one class for one place.

The loop of arguments is first taken for the list loop (`Grammar.arguments_succ`); then the list
loop is followed through twin vectors.
-/

namespace CallGrammar

variable {σ : Type}

/-- Read a literal, a variable, a name, or anything in brackets. -/
def Parser.primary [Location σ] (p : Parser σ) : Except (ParseError σ) (Expr σ) × Parser σ :=
  p.read Grammar.primary fun context c =>
    (Grammar.primary_within _ context c (by unfold bound; omega)).ne_exhausted

/-! ## lists -/

namespace Twin

variable {w : Twin σ} {c d : Cursor σ}

/-- The closers of both lists are under the cursors, or a token that closes neither. -/
theorem closers (h : w.At 0 c d) (opener opener' : σ) :
    ((Parse.closeAs .argumentList .commaOrParen opener).run w.first c
          = .done w.paren.span c.next ∧
        (Parse.close .array opener').run w.second d = .done w.bracket.span d.next ∧
        c.next.ahead = w.here ∧ d.next.ahead = w.there) ∨
      ∃ e e', (Parse.closeAs .argumentList .commaOrParen opener).run w.first c = .failed e c ∧
        (Parse.close .array opener').run w.second d = .failed e' d ∧
        e'.category = e.category ∧ e'.span = e.span := by
  obtain ⟨passed, ahead⟩ := c
  obtain ⟨passed', ahead'⟩ := d
  obtain ⟨us, rfl, rfl, -, hus⟩ := h
  cases us with
  | nil =>
    have hparen : (⟨passed, w.paren :: w.here⟩ : Cursor σ).kind?
        = some (.symbol Construct.argumentList.closer) := congrArg some w.paren_kind
    have hbracket : (⟨passed', w.bracket :: w.there⟩ : Cursor σ).kind?
        = some (.symbol Construct.array.closer) := congrArg some w.bracket_kind
    exact .inl ⟨Parse.run_closeAs_of_eq hparen _ opener, Parse.run_closeAs_of_eq hbracket _ opener',
      rfl, rfl⟩
  | cons t us =>
    have hopen : t.kind.closesGroup = false := hus.closesGroup_head
    have hne (s : Symbol) (hs : (Kind.symbol s).closesGroup = true) : t.kind ≠ .symbol s := by
      intro ht
      rw [ht, hs] at hopen
      cases hopen
    exact .inr ⟨_, _, Parse.run_closeAs_of_ne rfl (hne _ rfl) _ opener,
      Parse.run_closeAs_of_ne rfl (hne _ rfl) _ opener', rfl, rfl⟩

variable [Location σ]

/-- Up to a parenthesis or a square bracket, the list loop reads alike. -/
theorem elements (n : Nat) :
    w.Even none .token 0 0 (Grammar.elements .argumentList n) (Grammar.elements .array n) := by
  induction n with
  | zero => exact exhausted
  | succ n ih =>
    unfold Grammar.elements
    apply bind skipNewlines
    intro _
    apply peek rfl
    · intro k hopen
      split
      · exact pure []
      · exact strayComma
      · next kind _ =>
        have hcloses : kind.closesGroup = false := hopen rfl kind rfl
        rw [if_neg (by rintro rfl; cases hcloses), if_neg (by rintro rfl; cases hcloses)]
        apply bind (w.even n (.expression 0) 0 rfl)
        intro first
        apply bind skipNewlines
        intro _
        apply peek rfl
        · intro k _
          split
          · apply bind (advance rfl rfl)
            intro _
            apply bind ih
            intro rest
            exact pure _
          · exact pure _
        · exact fun _ => pure _
    · exact fun _ => pure []

/-- Both lists with their closers: read past them with the same expressions, or refused. -/
theorem lists (n : Nat) (h : w.At 0 c d) (opener opener' : σ) :
    let args := Grammar.elements .argumentList n >>= fun args =>
      Parse.closeAs .argumentList .commaOrParen opener >>= fun _ => Pure.pure args
    let array := Grammar.elements .array n >>= fun items =>
      Parse.close .array opener' >>= fun closer =>
        Pure.pure (Expr.array (Location.merge opener' closer) items)
    (∃ items c' d', args.run w.first c = .done items c' ∧
        array.run w.second d = .done (.array (Location.merge opener' w.bracket.span) items) d' ∧
        c'.ahead = w.here ∧ d'.ahead = w.there) ∨
      (∃ e e' c' d', args.run w.first c = .failed e c' ∧ array.run w.second d = .failed e' d' ∧
        e'.category = e.category ∧ e'.span = e.span) ∨
      args.run w.first c = .exhausted := by
  intro args array
  have heven := elements n c d h nofun
  simp only [args, array, Parse.run_bind]
  generalize (Grammar.elements .argumentList n).run w.first c = o,
    (Grammar.elements .array n).run w.second d = o' at heven ⊢
  cases heven with
  | @done items c' d' hcd =>
    obtain ⟨hparen, hbracket, hahead, hahead'⟩ | ⟨e, e', hparen, hbracket, hcategory, hspan⟩ :=
      closers hcd opener opener'
    · simp only [hparen, hbracket]
      exact .inl ⟨items, _, _, rfl, rfl, hahead, hahead'⟩
    · simp only [hparen, hbracket]
      exact .inr (.inl ⟨e, e', _, _, rfl, rfl, hcategory, hspan⟩)
  | failed hcategory hspan => exact .inr (.inl ⟨_, _, _, _, rfl, rfl, hcategory, hspan⟩)
  | exhausted => exact .inr (.inr rfl)

end Twin

/-! ## the readings of whole lists -/

variable {context : Context σ} {passed ahead body rest : List (Token σ)}
  {opener closer opener' closer' : Token σ}

/-- Where a reading ends is told by what it leaves. -/
theorem Cursor.Crosses.eq_of_ahead {d : Cursor σ}
    (h : (⟨passed, opener :: (body ++ closer :: rest)⟩ : Cursor σ).Crosses d)
    (hd : d.ahead = rest) : d = ⟨closer :: (body.reverse ++ opener :: passed), rest⟩ := by
  apply Cursor.eq_of_tokens_eq
  · rw [h.tokens_eq]
    simp [Cursor.tokens]
  · rw [hd]

variable [Location σ]

namespace Grammar

/-- Behind an opening parenthesis, arguments are a list of elements and the closer. -/
theorem run_arguments_cons (hopener : opener.kind = .symbol .openParen) (n : Nat) :
    (arguments (n + 1)).run context ⟨passed, opener :: ahead⟩
      = (elements .argumentList n >>= fun args =>
          Parse.closeAs .argumentList .commaOrParen opener.span >>= fun _ => pure args).run context
            ⟨opener :: passed, ahead⟩ := by
  have hkind : (⟨passed, opener :: ahead⟩ : Cursor σ).kind? = some (.symbol .openParen) :=
    congrArg some hopener
  rw [arguments_succ, Parse.run_bind, Parse.symbol, Parse.run_expect_of_eq hkind]
  rfl

/-- Behind an opening bracket, an array is a list of elements and the closer. -/
theorem run_primary_cons (hopener : opener.kind = .symbol .openBracket) (n : Nat) :
    (primary (n + 1)).run context ⟨passed, opener :: ahead⟩
      = (elements .array n >>= fun items => Parse.close .array opener.span >>= fun closer =>
          pure (.array (Location.merge opener.span closer) items)).run context
            ⟨opener :: passed, ahead⟩ := by
  have hkind : (⟨passed, opener :: ahead⟩ : Cursor σ).kind? = some (.symbol .openBracket) :=
    congrArg some hopener
  unfold primary
  rw [Parse.run_place_bind, Parse.run_peek_bind, hkind]
  rfl

end Grammar

/-- **Lists**: between the same places and before the same tokens, arguments in parentheses
and the array of what stands between them have the same expressions, and the readings end past
the closers; or both are refused, for the same place and with errors of one class. -/
theorem Parser.arguments_primary (hopener : opener.kind = .symbol .openParen)
    (hcloser : closer.kind = .symbol .closeParen) (hopener' : opener'.kind = .symbol .openBracket)
    (hcloser' : closer'.kind = .symbol .closeBracket) (hopen : opener'.span = opener.span)
    (hclose : closer'.span = closer.span) (hbody : Balanced body) :
    let p : Parser σ := ⟨context, ⟨passed, opener :: (body ++ closer :: rest)⟩⟩
    let q : Parser σ := ⟨context, ⟨passed, opener' :: (body ++ closer' :: rest)⟩⟩
    (∃ items : List (Expr σ),
      p.arguments = (.ok items, ⟨context, ⟨closer :: (body.reverse ++ opener :: passed), rest⟩⟩) ∧
      q.primary = (.ok (.array (Location.merge opener'.span closer'.span) items),
        ⟨context, ⟨closer' :: (body.reverse ++ opener' :: passed), rest⟩⟩)) ∨
    ∃ (e e' : ParseError σ) (p' q' : Parser σ), p.arguments = (.error e, p') ∧
      q.primary = (.error e', q') ∧ e'.category = e.category ∧ e'.span = e.span := by
  intro p q
  obtain ⟨n, hn⟩ : ∃ n, bound p.cursor = n + 1 := ⟨_, rfl⟩
  have hn' : bound q.cursor = n + 1 := by
    rw [← hn]
    simp only [bound, p, q, List.length_cons, List.length_append]
  let w : Twin σ :=
    { first := context, second := context, calls := rfl, paren := closer, bracket := closer',
      paren_kind := hcloser, bracket_kind := hcloser', span := hclose, here := rest, there := rest }
  have hstart : w.At 0 ⟨opener :: passed, body ++ closer :: rest⟩
      ⟨opener' :: passed, body ++ closer' :: rest⟩ :=
    ⟨body, rfl, rfl, congrArg some hopen, hbody.closes⟩
  have hargs : (Grammar.arguments (bound p.cursor)).run context p.cursor = _ :=
    hn ▸ Grammar.run_arguments_cons hopener n
  have hprimary : (Grammar.primary (bound q.cursor)).run context q.cursor = _ :=
    hn' ▸ Grammar.run_primary_cons hopener' n
  obtain ⟨items, c, d, hitems, hitems', hahead, hahead'⟩ |
    ⟨e, e', c, d, herror, herror', hcategory, hspan⟩ | hexhausted :=
      Twin.lists n hstart opener.span opener'.span
  · have hargs := hargs.trans hitems
    have hprimary := hprimary.trans hitems'
    have hcross : p.cursor.Crosses c :=
      Phrase.crosses_of_done .arguments (n := bound p.cursor) hargs rfl
    have hcross' : q.cursor.Crosses d :=
      Phrase.crosses_of_done .primary (n := bound q.cursor) hprimary rfl
    obtain rfl := hcross.eq_of_ahead hahead
    obtain rfl := hcross'.eq_of_ahead hahead'
    exact .inl ⟨items, read_of_done hargs, read_of_done hprimary⟩
  · exact .inr ⟨e, e', _, _, read_of_failed (hargs.trans herror),
      read_of_failed (hprimary.trans herror'), hcategory, hspan⟩
  · exact absurd (hargs.trans hexhausted) (Request.enough .arguments context p.cursor)

/-- Between parentheses and between square brackets, `a, []` is a list of two. -/
theorem Parser.arguments_primary_pair :
    let token (kind : Kind) (start : Nat) : Token Span := ⟨kind, ⟨start, start + 1⟩, true⟩
    let body := [token (.name "a") 1, token (.symbol .comma) 2, token (.symbol .openBracket) 3,
      token (.symbol .closeBracket) 4]
    let p : Parser Span := ⟨⟨⟨6, 6⟩, .default⟩,
      ⟨[], token (.symbol .openParen) 0 :: (body ++ [token (.symbol .closeParen) 5])⟩⟩
    let q : Parser Span := ⟨⟨⟨6, 6⟩, .default⟩,
      ⟨[], token (.symbol .openBracket) 0 :: (body ++ [token (.symbol .closeBracket) 5])⟩⟩
    Balanced body ∧ ∃ items p' q', p.arguments = (.ok items, p') ∧
      q.primary = (.ok (.array ⟨0, 6⟩ items), q') ∧ items.length = 2 := by
  intro token body p q
  have hbody : Balanced body := .cons rfl (.cons rfl (@Balanced.group _ _ _ [] [] rfl .nil .nil))
  have hok : p.arguments.1.toOption.map List.length = some 2 := by decide +kernel
  refine ⟨hbody, ?_⟩
  obtain ⟨items, hargs, harray⟩ | ⟨e, e', p', q', hargs, -⟩ :=
    @Parser.arguments_primary Span p.context [] body [] (token (.symbol .openParen) 0)
      (token (.symbol .closeParen) 5) (token (.symbol .openBracket) 0)
      (token (.symbol .closeBracket) 5) _ rfl rfl rfl rfl rfl rfl hbody
  · refine ⟨items, _, _, hargs, harray, ?_⟩
    rw [hargs] at hok
    exact Option.some.inj hok
  · rw [hargs] at hok
    cases hok

end CallGrammar
