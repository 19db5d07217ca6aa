/-!
# CallGrammar.Decimal.Reading

Floating point numbers from decimal numbers: the nearest one, or one that is
reached in a few rounded steps and may be a neighbour of the nearest.
-/

namespace CallGrammar.Decimal

/-- The number nearest to `mantissa · 10 ^ exponent`, or to its negative.  Far
outside the range of numbers the power is not computed: the answer there is an
infinity or zero. -/
def toFloat (negative : Bool) (mantissa : Nat) (exponent : Int) : Float :=
  let top := exponent + (Nat.toDigits 10 mantissa).length
  let x :=
    if mantissa = 0 || top < -400 then 0.0
    else if top > 400 then 1.0 / 0.0
    else Float.ofScientific mantissa (exponent < 0) exponent.natAbs
  if negative then -x else x

/-- The number nearest to `10 ^ k`; an infinity if that is too large. -/
def powerOfTen (k : Nat) : Float := toFloat false 1 k

/-- The mantissa, rounded, times or by a rounded power of ten.  A divisor that
is too large for a number is split, `10 ^ 308` first. -/
def scale (negative : Bool) (mantissa : Nat) (exponent : Int) : Float :=
  let m := toFloat negative mantissa 0
  let k := exponent.natAbs
  if mantissa = 0 then m
  else if 0 ≤ exponent then m * powerOfTen k
  else if k ≤ 308 then m / powerOfTen k
  else m / powerOfTen 308 / powerOfTen (min (k - 308) 308)

end CallGrammar.Decimal
