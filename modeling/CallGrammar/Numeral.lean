import CallGrammar.Datum
import CallGrammar.Decimal.Reading

/-!
# CallGrammar.Numeral

Numbers as JSON writes them, and the values they are.

1. A number without a fraction and an exponent is an integer if it fits in 64
   bits: without a sign, or below zero with one.
2. Any other number is a floating point number.  Its digits are taken in order
   as long as they fit in 64 bits together, and what they give is scaled by a
   power of ten.  Later digits before the point count as places only, later
   digits after it not at all.
-/

namespace CallGrammar

/-- A number as it is written. -/
structure Numeral where
  negative : Bool
  whole : List Char
  fraction : List Char
  exponent : Option Int
  deriving DecidableEq

namespace Numeral

/-! ## reading -/

def digitValue (c : Char) : Nat := c.toNat - 48

def valueOf (digits : List Char) : Nat := digits.foldl (fun n c => 10 * n + digitValue c) 0

/-- The exponent that follows the digits, if there is one. -/
def exponent? : List Char → Option Int
  | e :: '-' :: ds => if e = 'e' || e = 'E' then some (-(valueOf ds : Int)) else none
  | e :: '+' :: ds => if e = 'e' || e = 'E' then some (valueOf ds) else none
  | e :: ds => if e = 'e' || e = 'E' then some (valueOf ds) else none
  | [] => none

/-- The parts of a number without its sign. -/
def ofUnsigned (negative : Bool) (cs : List Char) : Numeral :=
  let whole := cs.takeWhile Char.isDigit
  match cs.dropWhile Char.isDigit with
  | '.' :: rest =>
    ⟨negative, whole, rest.takeWhile Char.isDigit, exponent? (rest.dropWhile Char.isDigit)⟩
  | rest => ⟨negative, whole, [], exponent? rest⟩

/-- The parts of a number. -/
def ofText (text : String) : Numeral :=
  match text.toList with
  | '-' :: cs => ofUnsigned true cs
  | cs => ofUnsigned false cs

/-! ## values -/

/-- Digits added to `n` as long as the value fits in 64 bits, and the digits
left over. -/
def extend (n : Nat) : List Char → Nat × List Char
  | [] => (n, [])
  | c :: cs =>
    if 10 * n + digitValue c < 18446744073709551616 then extend (10 * n + digitValue c) cs
    else (n, c :: cs)

/-- The integer that the number is, if it is one that fits. -/
def integer? (x : Numeral) : Option Int :=
  let n := valueOf x.whole
  if x.fraction != [] || x.exponent.isSome then none
  else if x.negative then
    if 0 < n && n ≤ 9223372036854775808 then some (-(n : Int)) else none
  else if n < 18446744073709551616 then some n
  else none

/-- The floating point number that the number is. -/
def float (x : Numeral) : Float :=
  let (n, wholeLeft) := extend 0 x.whole
  let (n, fractionLeft) := extend n x.fraction
  let places : Int := wholeLeft.length - (x.fraction.length - fractionLeft.length : Nat)
  Decimal.scale x.negative n (places + x.exponent.getD 0)

/-- The number as a value. -/
def toDatum (place : Nat) (x : Numeral) : Datum :=
  match x.integer? with
  | some n => .integer place n
  | none => .float place x.float

end Numeral

end CallGrammar
