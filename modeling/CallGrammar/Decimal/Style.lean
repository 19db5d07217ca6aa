import CallGrammar.Decimal.Shortest

/-!
# CallGrammar.Decimal.Style

The text of a floating point number: its shortest decimal digits, laid out with
all their places or as a multiple of a power of ten.
-/

namespace CallGrammar.Decimal

/-! ## layouts -/

/-- The digits of `d · 10 ^ g` with all their places, at least one of them
after the point. -/
def positional (d : Nat) (g : Int) : String :=
  let digits := Nat.toDigits 10 d
  if 0 ≤ g then String.ofList (digits ++ List.replicate g.toNat '0' ++ ['.', '0'])
  else
    let places := (-g).toNat
    let padded := List.replicate (places + 1 - digits.length) '0' ++ digits
    let whole := padded.length - places
    String.ofList (padded.take whole ++ '.' :: padded.drop whole)

/-- The power of ten that the first digit of `d · 10 ^ g` stands for. -/
def leadingPower (d : Nat) (g : Int) : Int := g + ((Nat.toDigits 10 d).length : Int) - 1

/-- The digits of `d · 10 ^ g` with the point after the first of them, if there
are more, and the power of ten, always with its sign. -/
def scientific (d : Nat) (g : Int) : String :=
  let e := leadingPower d g
  let digits := match Nat.toDigits 10 d with
    | first :: second :: rest => first :: '.' :: second :: rest
    | digits => digits
  String.ofList digits ++ (if e < 0 then "e-" else "e+") ++ toString e.natAbs

/-! ## numbers -/

/-- How numbers are written. -/
structure Style where
  tie : Tie
  /-- Whether a number is written with all its places when its first digit
  stands for this power of ten. -/
  isPositional : Int → Bool

namespace Style

/-- The text of a positive finite number. -/
def writePositive (s : Style) (r : Rounding) : String :=
  let (d, g) := r.shortest s.tie
  if s.isPositional (leadingPower d g) then positional d g else scientific d g

/-- The text of a floating point number. -/
def write (s : Style) (x : Float) : String :=
  let bits := x.toBits.toNat
  let sign := if bits ≥ Nat.pow 2 63 then "-" else ""
  let exponentBits := bits / Nat.pow 2 52 % Nat.pow 2 11
  let mantissaBits := bits % Nat.pow 2 52
  if exponentBits = 2047 then
    if mantissaBits = 0 then sign ++ "inf" else "NaN"
  else if exponentBits = 0 && mantissaBits = 0 then sign ++ "0.0"
  else sign ++ s.writePositive (.ofBits exponentBits mantissaBits)

end Style

end CallGrammar.Decimal
