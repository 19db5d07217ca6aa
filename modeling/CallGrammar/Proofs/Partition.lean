import CallGrammar.Proofs.LongestMatch
import CallGrammar.Proofs.Diagnostics

/-!
# CallGrammar.Proofs.Partition

Tokens and blank space partition a source, byte by byte, and each invalid token has one
error of its own.

1. Tokens cover some bytes each, between characters, in order and apart; what they do not
   cover is spaces, tabs and carriage returns.
2. The errors are those of the invalid tokens, one each and in order, and the text of the
   token says which fault it is.
3. So the place of an invalid token is enough to find its error.
-/

namespace CallGrammar

/-- The span covers the byte with this offset. -/
def Span.Holds (s : Span) (i : Nat) : Prop := s.start ≤ i ∧ i < s.stop

instance (s : Span) (i : Nat) : Decidable (s.Holds i) :=
  inferInstanceAs (Decidable (s.start ≤ i ∧ i < s.stop))

/-- A span that cuts a text selects the piece. -/
theorem Span.Cuts.selects {s : Span} {offset : Nat} {cs piece back : List Char}
    (h : s.Cuts offset cs piece back) : s.Selects offset cs := by
  obtain ⟨front, hcs, hs⟩ := h
  exact ⟨front, piece, back, hcs, hs⟩

/-- What selects some characters lies within the source. -/
theorem Span.Selects.within {s : Span} {source : String} (h : s.Selects 0 source.toList) :
    s.Within source := by
  obtain ⟨hstart, hstop⟩ := h.isValid
  obtain ⟨front, piece, back, hsource, rfl⟩ := h
  have hlen := congrArg Token.byteLength hsource
  rw [Token.byteLength_toList, Token.byteLength_append, Token.byteLength_append] at hlen
  refine ⟨?_, ?_, hstart, hstop⟩
  · change 0 + Token.byteLength front ≤ 0 + Token.byteLength (front ++ piece)
    rw [Token.byteLength_append]
    omega
  · change 0 + Token.byteLength (front ++ piece) ≤ source.utf8ByteSize
    rw [Token.byteLength_append]
    omega

namespace Token

variable {found : Option Kind} {piece back cs : List Char} {offset i : Nat} {touchable : Bool}
  {ts : List (Token Span)} {t : Token Span} {fault : Fault} {source : String} {b : UInt8}

/-! ## bytes -/

/-- The bytes of some characters. -/
def bytes (cs : List Char) : List UInt8 := cs.flatMap String.utf8EncodeChar

/-- The bytes of a space, a tab and a carriage return. -/
def blankBytes : List UInt8 := [0x20, 0x09, 0x0D]

theorem bytes_append (cs ds : List Char) : bytes (cs ++ ds) = bytes cs ++ bytes ds :=
  List.flatMap_append

/-- A text has as many bytes as its characters have. -/
theorem length_bytes (cs : List Char) : (bytes cs).length = byteLength cs := by
  induction cs with
  | nil => rfl
  | cons c cs ih =>
    rw [bytes] at ih
    rw [bytes, List.flatMap_cons, List.length_append, ih, String.length_utf8EncodeChar, byteLength]

/-- The bytes of a source are those of its characters. -/
theorem toList_toUTF8 (source : String) : source.toUTF8.data.toList = bytes source.toList := by
  rw [String.toUTF8_eq_toByteArray, ← String.ofList_toList (s := source),
    String.toByteArray_ofList, List.utf8Encode, List.data_toByteArray, List.toList_toArray,
    String.toList_ofList, bytes]

/-- A blank is of one byte, one of these. -/
theorem mem_blankBytes (h : ∀ c ∈ cs, Rule.isBlank c = true) (hb : b ∈ bytes cs) :
    b ∈ blankBytes := by
  obtain ⟨c, hc, hb⟩ := List.mem_flatMap.1 hb
  have hall : [' ', '\t', '\r'].all (fun c =>
      (String.utf8EncodeChar c).all (blankBytes.contains ·)) = true := by decide
  have hmem : c ∈ [' ', '\t', '\r'] := by
    have hblank := h c hc
    simp only [Rule.isBlank, Bool.or_eq_true, beq_iff_eq] at hblank
    obtain (rfl | rfl) | rfl := hblank <;> decide
  exact List.elem_iff.1 (List.all_eq_true.1 (List.all_eq_true.1 hall c hmem) b hb)

/-! ## what no token covers -/

/-- A piece that is no token is blank. -/
theorem Leads.blank (h : Leads none piece back) : ∀ c ∈ piece, Rule.isBlank c = true := by
  obtain ⟨r, hbest, hread⟩ | ⟨-, c, -, hfound⟩ := h.best
  · obtain ⟨hr, hmem⟩ := Rule.mem_language_of_best hbest
    have hrule := Rule.mem_language_of_read hr hmem
    rw [hread] at hrule
    exact Pattern.all_of_mem_plus hrule
  · cases hfound

/-- A byte that no token covers is one of blank space. -/
theorem Divides.mem_blankBytes (h : Divides offset touchable cs ts)
    (hb : (bytes cs)[i]? = some b) (hout : ∀ t ∈ ts, ¬ t.span.Holds (offset + i)) :
    b ∈ blankBytes := by
  induction h generalizing i with
  | nil => cases hb
  | @blank offset _ piece back ts hleads _ ih =>
    rw [bytes_append, List.getElem?_append, length_bytes] at hb
    split at hb
    · exact Token.mem_blankBytes hleads.blank (List.mem_of_getElem? hb)
    · next hi =>
      refine ih hb fun t ht => ?_
      rw [Nat.add_assoc, Nat.add_sub_cancel' (Nat.not_lt.1 hi)]
      exact hout t ht
  | @token offset _ kind piece back ts hleads _ ih =>
    rw [bytes_append, List.getElem?_append, length_bytes] at hb
    split at hb
    · next hi =>
      have hholds : Span.Holds ⟨offset, offset + byteLength piece⟩ (offset + i) :=
        ⟨Nat.le_add_right offset i, Nat.add_lt_add_left hi offset⟩
      exact absurd hholds (hout _ List.mem_cons_self)
    · next hi =>
      refine ih hb fun t ht => ?_
      rw [Nat.add_assoc, Nat.add_sub_cancel' (Nat.not_lt.1 hi)]
      exact hout t (List.mem_cons_of_mem _ ht)

/-! ## errors -/

/-- The error is the one of the invalid token: it stands where the token starts, and its
fault is what the text of the token shows. -/
def Reports (source : String) (t : Token Span) (e : LexicalError) : Prop :=
  e.position = t.span.start ∧ ∃ piece back, t.span.Cuts 0 source.toList piece back ∧
    (e.fault = .unterminatedComment ↔ "/*".toList <+: piece) ∧
    (e.fault = .unterminatedString ↔ piece.head? = some '\'' ∨ piece.head? = some '"') ∧
    ∀ c, e.fault = .unexpectedCharacter c → piece = [c]

/-- The text of an invalid token shows its fault. -/
theorem Leads.fault_iff (h : Leads (some (.invalid fault)) piece back) :
    (fault = .unterminatedComment ↔ "/*".toList <+: piece) ∧
    (fault = .unterminatedString ↔ piece.head? = some '\'' ∨ piece.head? = some '"') ∧
    ∀ c, fault = .unexpectedCharacter c → piece = [c] := by
  obtain ⟨rfl, rfl⟩ | ⟨rfl, quote, hquote, hmem⟩ | ⟨c, rfl, rfl, hnone⟩ := h.fault
  · simp
  · obtain ⟨cs, rfl⟩ := Quoted.exists_of_mem_openString hmem
    have hslash : quote ≠ '/' := by obtain rfl | rfl := hquote <;> decide
    simpa [hslash.symm] using hquote
  · have hquote : ¬ (c = '\'' ∨ c = '"') := by
      intro hquote
      obtain ⟨r, m, hbest, -⟩ := Rule.exists_best_of_mem (Rule.openString_mem_table hquote) rfl
        Quoted.quote_mem_openString (List.prefix_append [c] back)
      rw [hnone] at hbest
      cases hbest
    simpa using hquote

/-- An invalid token is an error where it starts. -/
theorem errors_cons_invalid (hk : t.kind = .invalid fault) :
    errors (t :: ts) = ⟨fault, t.span.start⟩ :: errors ts := by
  simp [errors, LexicalError.ofToken?, hk]

/-- Any other token is none. -/
theorem errors_cons_valid (hk : t.kind.isValid = true) : errors (t :: ts) = errors ts := by
  unfold errors
  rw [List.filterMap_cons_none]
  unfold LexicalError.ofToken?
  split
  · next hfault => simp [hfault, Kind.isValid] at hk
  · rfl

/-- The errors are those of the invalid tokens, one each and in order. -/
theorem forall₂_errors {R : Token Span → LexicalError → Prop}
    (h : ∀ t ∈ ts, ∀ fault, t.kind = .invalid fault → R t ⟨fault, t.span.start⟩) :
    List.Forall₂ R (ts.filter (!·.kind.isValid)) (errors ts) := by
  induction ts with
  | nil => exact .nil
  | cons t ts ih =>
    have htail := ih fun u hu => h u (List.mem_cons_of_mem t hu)
    cases hk : t.kind with
    | invalid fault =>
      rw [errors_cons_invalid hk, List.filter_cons_of_pos (by rw [hk]; rfl)]
      exact .cons (h t List.mem_cons_self fault hk) htail
    | _ =>
      rw [errors_cons_valid (by rw [hk]; rfl), List.filter_cons_of_neg (by rw [hk]; nofun)]
      exact htail

/-- The error of an invalid token is the only one at its place. -/
theorem find?_errors (hs : Sorted ts) (ht : t ∈ ts) (hk : t.kind = .invalid fault) :
    (errors ts).find? (·.position == t.span.start) = some ⟨fault, t.span.start⟩ := by
  induction ts with
  | nil => cases ht
  | cons u ts ih =>
    obtain rfl | ht := List.mem_cons.1 ht
    · rw [errors_cons_invalid hk, List.find?_cons_of_pos (by simp)]
    · have hlt : u.span.start < t.span.start :=
        Nat.lt_of_lt_of_le (hs.nonempty u List.mem_cons_self)
          ((List.pairwise_cons.1 hs.ordered).1 t ht)
      cases hu : u.kind with
      | invalid fault' =>
        rw [errors_cons_invalid hu, List.find?_cons_of_neg (by simpa using Nat.ne_of_lt hlt)]
        exact ih hs.tail ht
      | _ =>
        rw [errors_cons_valid (by rw [hu]; rfl)]
        exact ih hs.tail ht

/-! ## the whole source -/

/-- **Partition**: the tokens of a source cover some bytes each, within the source and
between characters, in order and apart; what they leave is blank space; and the errors are
those of the invalid tokens, which are found by their places. -/
theorem partition_ofText (source : String) :
    Sorted (ofText source) ∧ (∀ t ∈ ofText source, t.span.Within source) ∧
    (∀ i b, source.toUTF8.data.toList[i]? = some b →
      (∀ t ∈ ofText source, ¬ t.span.Holds i) → b ∈ blankBytes) ∧
    List.Forall₂ (Reports source) ((ofText source).filter (!·.kind.isValid))
      (errors (ofText source)) ∧
    ∀ t ∈ ofText source, ∀ fault, t.kind = .invalid fault →
      (errors (ofText source)).find? (·.position == t.span.start)
        = some ⟨fault, t.span.start⟩ := by
  have hsorted : Sorted (ofText source) := (sorted_scan 0 0 false source.toList).1
  have hdivides : Divides 0 false source.toList (ofText source) :=
    divides_scan 0 false source.toList
  refine ⟨hsorted, ?_, ?_, ?_, ?_⟩
  · intro t ht
    obtain ⟨piece, back, hcuts, -⟩ := hdivides.exists_cuts t ht
    exact hcuts.selects.within
  · intro i b hb hout
    rw [toList_toUTF8] at hb
    exact hdivides.mem_blankBytes hb (by simpa using hout)
  · refine forall₂_errors fun t ht fault hk => ?_
    obtain ⟨piece, back, hcuts, hleads⟩ := hdivides.exists_cuts t ht
    rw [hk] at hleads
    exact ⟨rfl, piece, back, hcuts, hleads.fault_iff⟩
  · exact fun t ht fault hk => find?_errors hsorted ht hk

/-- Each kind of fault, and a string that is broken off at a backslash. -/
example : errors (ofText "~ /* 'é\\\n\"") =
    [⟨.unexpectedCharacter '~', 0⟩, ⟨.unterminatedComment, 2⟩, ⟨.unterminatedString, 5⟩,
      ⟨.unexpectedCharacter '\\', 8⟩, ⟨.unterminatedString, 10⟩] := by decide

end Token

end CallGrammar
