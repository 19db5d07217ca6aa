/-!
# CallGrammar.Pattern

Regular patterns over characters, and the longest prefix of a text that a
pattern matches.

A text is matched one character at a time: `derivative c p` is the pattern of
what may follow once `p` has read `c`.  The constructors `followedBy` and `or`
drop the parts that can never match, so that a pattern which has no
continuation becomes `never` and the search stops there.
-/

namespace CallGrammar

/-- A set of texts. -/
inductive Pattern where
  /-- No text. -/
  | never
  /-- The empty text. -/
  | nothing
  /-- One character of a class. -/
  | one (accepts : Char → Bool)
  /-- A text of the first, then a text of the second. -/
  | seq (first second : Pattern)
  /-- A text of either. -/
  | alt (first second : Pattern)
  /-- Any number of texts, one after the other. -/
  | star (body : Pattern)

namespace Pattern

/-! ## building -/

/-- `seq` that drops parts which match nothing or only the empty text. -/
def followedBy : Pattern → Pattern → Pattern
  | never, _ => never
  | _, never => never
  | nothing, q => q
  | p, q => seq p q

/-- `alt` that drops parts which match nothing. -/
def or : Pattern → Pattern → Pattern
  | never, q => q
  | p, never => p
  | p, q => alt p q

/-- The one character `c`. -/
def char (c : Char) : Pattern := one (· == c)

/-- Exactly the text `s`. -/
def text (s : String) : Pattern :=
  s.toList.foldr (fun c p => (char c).followedBy p) nothing

/-- The patterns one after the other. -/
def sequence (ps : List Pattern) : Pattern := ps.foldr followedBy nothing

/-- Once or not at all. -/
def optional (p : Pattern) : Pattern := or p nothing

/-- At least once. -/
def plus (p : Pattern) : Pattern := p.followedBy (star p)

/-! ## matching -/

/-- Whether the empty text is matched. -/
def nullable : Pattern → Bool
  | never | one _ => false
  | nothing | star _ => true
  | seq p q => p.nullable && q.nullable
  | alt p q => p.nullable || q.nullable

/-- What may follow after `c` has been read. -/
def derivative (c : Char) : Pattern → Pattern
  | never | nothing => never
  | one accepts => if accepts c then nothing else never
  | seq p q =>
    if p.nullable then ((p.derivative c).followedBy q).or (q.derivative c)
    else (p.derivative c).followedBy q
  | alt p q => (p.derivative c).or (q.derivative c)
  | star p => (p.derivative c).followedBy (star p)

def isNever : Pattern → Bool
  | never => true
  | _ => false

/-- The length of the longest prefix that `p` matches, if it matches any. -/
def longest (p : Pattern) : List Char → Option Nat
  | [] => if p.nullable then some 0 else none
  | c :: cs =>
    if p.isNever then none
    else match (p.derivative c).longest cs with
      | some n => some (n + 1)
      | none => if p.nullable then some 0 else none

end Pattern

end CallGrammar
