/-!
# CallGrammar.Decimal.Shortest

The shortest decimal number that reads back as a floating point number: the
fewest digits that do, and of those the nearest.

A finite number is `m · 2 ^ q`.  The reals that round to it reach half a step
to either side, the ends included when `m` is even; below a power of two the
step is half as wide.  On the grid of `n` significant digits a point lies among
them only if one of the number's two neighbours on that grid does.
-/

namespace CallGrammar.Decimal

/-- Which of two equally near integers is taken. -/
inductive Tie where
  /-- The greater. -/
  | up
  /-- The even one. -/
  | even
  deriving DecidableEq

/-- Whether a number halfway between `d` and the next integer goes to `d`. -/
def Tie.keeps (t : Tie) (d : Nat) : Bool := t == .even && d % 2 == 0

/-! ## the reals that round to a number -/

/-- The number `center / den`, and the interval from `low / den` to
`high / den` of the reals that round to it; `closed` says that the ends do. -/
structure Rounding where
  low : Nat
  center : Nat
  high : Nat
  den : Nat
  closed : Bool

namespace Rounding

/-- The positive finite number with these exponent and mantissa bits. -/
def ofBits (exponentBits mantissaBits : Nat) : Rounding :=
  let m := if exponentBits = 0 then mantissaBits else mantissaBits + Nat.pow 2 52
  let e := max exponentBits 1
  -- a quarter of a step is `2 ^ (e - 1077)`
  let up := Nat.pow 2 (e - 1077)
  let below := if mantissaBits = 0 && 1 < exponentBits then 1 else 2
  ⟨(4 * m - below) * up, 4 * m * up, (4 * m + 2) * up, Nat.pow 2 (1077 - e), m % 2 == 0⟩

/-- The same numbers in units of `10 ^ g`. -/
def inUnits (g : Int) (r : Rounding) : Rounding :=
  let f := Nat.pow 10 (-g).toNat
  ⟨r.low * f, r.center * f, r.high * f, r.den * Nat.pow 10 g.toNat, r.closed⟩

/-- Whether `d` rounds to the number. -/
def holds (r : Rounding) (d : Nat) : Bool :=
  if r.closed then r.low ≤ d * r.den && d * r.den ≤ r.high
  else r.low < d * r.den && d * r.den < r.high

/-- Whether the number is nearer to `d` than to the next integer. -/
def isBelowHalf (r : Rounding) (tie : Tie) (d : Nat) : Bool :=
  2 * r.center < (2 * d + 1) * r.den || (2 * r.center == (2 * d + 1) * r.den && tie.keeps d)

/-- The nearest integer that rounds to the number. -/
def nearest? (r : Rounding) (tie : Tie) : Option Nat :=
  let d := r.center / r.den
  match r.holds d, r.holds (d + 1) with
  | true, true => some (if r.isBelowHalf tie d then d else d + 1)
  | true, false => some d
  | false, true => some (d + 1)
  | false, false => none

/-- The greatest `x` with `10 ^ x` at most the number. -/
def magnitude (r : Rounding) : Int :=
  if r.den ≤ r.center then ((Nat.toDigits 10 (r.center / r.den)).length : Int) - 1
  else -(((List.range 400).find? fun k => r.den ≤ r.center * Nat.pow 10 k).getD 400 : Nat)

/-- The shortest digits `d` and the exponent `g` for which `d · 10 ^ g` rounds
to the number. -/
def shortest (r : Rounding) (tie : Tie) : Nat × Int :=
  let x := r.magnitude
  let found := (List.range 17).findSome? fun (n : Nat) =>
    ((r.inUnits (x - n)).nearest? tie).map fun d => (d, x - n)
  match found with
  | some (10, g) => (1, g + 1)
  | some found => found
  | none => (r.center / r.den, 0)

end Rounding

end CallGrammar.Decimal
