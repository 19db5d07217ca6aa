import CallGrammar.Decimal.Reading

/-!
# CallGrammar.Toml.Scalar

Values that are written as one word: truth values, integers, floating point
numbers, dates and times.

1. Digits may be grouped by single underscores; a decimal number has no
   leading zero; binary, octal and hexadecimal integers have no sign.
2. Integers fit in 64 bits with their sign, and no number without a minus sign
   is too large for a floating point number.
3. Dates exist in the calendar, leap years included; a minute may have a
   leap second.
-/

namespace CallGrammar.Toml

inductive Scalar where
  | boolean (value : Bool)
  | integer (value : Int)
  | float (value : Float)
  | moment

namespace Scalar

/-! ## numbers -/

/-- The digits of a run, without the underscores between them. -/
def digitRun (isDigit : Char → Bool) : List Char → Option (List Char)
  | [] => none
  | [c] => if isDigit c then some [c] else none
  | c :: '_' :: cs => if isDigit c then (digitRun isDigit cs).map (c :: ·) else none
  | c :: cs => if isDigit c then (digitRun isDigit cs).map (c :: ·) else none

def digitValue (c : Char) : Nat :=
  if c.isDigit then c.toNat - 48 else if c.isLower then c.toNat - 87 else c.toNat - 55

def valueOf (base : Nat) (digits : List Char) : Nat :=
  digits.foldl (fun n c => base * n + digitValue c) 0

def isHexDigit (c : Char) : Bool :=
  c.isDigit || ('a' ≤ c && c ≤ 'f') || ('A' ≤ c && c ≤ 'F')

/-- Digits of a decimal integer: no zero before another digit. -/
def decimalDigits? (cs : List Char) : Option (List Char) := do
  let digits ← digitRun Char.isDigit cs
  if digits.head? = some '0' && digits.length > 1 then none else some digits

/-- An integer, if it fits in 64 bits with its sign. -/
def fitting? (n : Int) : Option Int :=
  if -9223372036854775808 ≤ n && n ≤ 9223372036854775807 then some n else none

/-- A sign, if there is one, and what follows. -/
def splitSign : List Char → Bool × List Char
  | '-' :: cs => (true, cs)
  | '+' :: cs => (false, cs)
  | cs => (false, cs)

def integer? : List Char → Option Int
  | '0' :: 'x' :: cs => do fitting? (valueOf 16 (← digitRun isHexDigit cs))
  | '0' :: 'o' :: cs => do fitting? (valueOf 8 (← digitRun (fun c => '0' ≤ c && c ≤ '7') cs))
  | '0' :: 'b' :: cs => do fitting? (valueOf 2 (← digitRun (fun c => c == '0' || c == '1') cs))
  | cs => do
    let (negative, cs) := splitSign cs
    let n : Int := valueOf 10 (← decimalDigits? cs)
    fitting? (if negative then -n else n)

/-- The exponent of a number, from its letter; zero if there is none. -/
def exponent? : List Char → Option Int
  | [] => some 0
  | c :: cs => do
    if c ≠ 'e' && c ≠ 'E' then failure
    let (negative, cs) := splitSign cs
    let n : Int := valueOf 10 (← digitRun Char.isDigit cs)
    some (if negative then -n else n)

/-- The digits after the point, and what follows them. -/
def fraction? : List Char → Option (List Char × List Char)
  | '.' :: cs => do
    let inFraction := fun (c : Char) => c.isDigit || c == '_'
    let digits ← digitRun Char.isDigit (cs.takeWhile inFraction)
    some (digits, cs.dropWhile inFraction)
  | cs => some ([], cs)

def infinity : Float := 1.0 / 0.0

def notANumber : Float := 0.0 / 0.0

def float? (cs : List Char) : Option Float := do
  let (negative, cs) := splitSign cs
  if cs = ['i', 'n', 'f'] then return if negative then -infinity else infinity
  if cs = ['n', 'a', 'n'] then return notANumber
  let inWhole := fun (c : Char) => c.isDigit || c == '_'
  let whole ← decimalDigits? (cs.takeWhile inWhole)
  let cs := cs.dropWhile inWhole
  -- digits alone are an integer
  if cs.isEmpty then failure
  let (fraction, cs) ← fraction? cs
  let exponent ← exponent? cs
  let x := Decimal.toFloat negative (valueOf 10 (whole ++ fraction)) (exponent - fraction.length)
  if x == infinity then none else some x

/-! ## dates and times -/

/-- A number of exactly `n` digits, and what follows. -/
def digits? (n : Nat) (cs : List Char) : Option (Nat × List Char) :=
  let ds := cs.take n
  if ds.length = n && ds.all Char.isDigit then some (valueOf 10 ds, cs.drop n) else none

/-- What follows the character `c`. -/
def after? (c : Char) : List Char → Option (List Char)
  | x :: cs => if x = c then some cs else none
  | [] => none

def isLeapYear (year : Nat) : Bool := year % 4 == 0 && (year % 100 != 0 || year % 400 == 0)

def daysInMonth (year month : Nat) : Nat :=
  if month = 2 then (if isLeapYear year then 29 else 28)
  else if month = 4 || month = 6 || month = 9 || month = 11 then 30
  else 31

/-- What follows a date. -/
def date? (cs : List Char) : Option (List Char) := do
  let (year, cs) ← digits? 4 cs
  let (month, cs) ← digits? 2 (← after? '-' cs)
  let (day, cs) ← digits? 2 (← after? '-' cs)
  if 1 ≤ month && month ≤ 12 && 1 ≤ day && day ≤ daysInMonth year month then some cs else none

/-- What follows a time of day. -/
def time? (cs : List Char) : Option (List Char) := do
  let (hour, cs) ← digits? 2 cs
  let (minute, cs) ← digits? 2 (← after? ':' cs)
  let (second, cs) ← digits? 2 (← after? ':' cs)
  if hour > 23 || minute > 59 || second > 60 then failure
  match cs with
  | '.' :: cs =>
    if (cs.takeWhile Char.isDigit).isEmpty then failure
    some (cs.dropWhile Char.isDigit)
  | cs => some cs

/-- What follows the distance from universal time, if one is given. -/
def offset? : List Char → Option (List Char)
  | 'Z' :: cs | 'z' :: cs => some cs
  | '+' :: cs | '-' :: cs => do
    let (hour, cs) ← digits? 2 cs
    let (minute, cs) ← digits? 2 (← after? ':' cs)
    if hour > 23 || minute > 59 then none else some cs
  | cs => some cs

/-- Whether the whole text is a date, a time, or both. -/
def isMoment (cs : List Char) : Bool :=
  match date? cs with
  | some [] => true
  | some (c :: cs) =>
    (c == 'T' || c == 't' || c == ' ') && ((time? cs).bind offset?) == some []
  | none => time? cs == some []

/-! ## any of them -/

/-- The value that a word is. -/
def ofWord? (cs : List Char) : Option Scalar :=
  if cs = ['t', 'r', 'u', 'e'] then some (.boolean true)
  else if cs = ['f', 'a', 'l', 's', 'e'] then some (.boolean false)
  else if isMoment cs then some .moment
  else
    match integer? cs with
    | some n => some (.integer n)
    | none => (float? cs).map .float

def isWordChar (c : Char) : Bool :=
  c.isAlphanum || c == '+' || c == '-' || c == '.' || c == '_' || c == ':'

/-- The word at the front of a text, and what follows.  A blank between a date
and a time belongs to the word. -/
def splitWord (cs : List Char) : List Char × List Char :=
  let word := cs.takeWhile isWordChar
  let rest := cs.dropWhile isWordChar
  match date? word, rest with
  | some [], ' ' :: more =>
    if ((digits? 2 more).bind fun p => after? ':' p.2).isSome then
      (word ++ ' ' :: more.takeWhile isWordChar, more.dropWhile isWordChar)
    else (word, rest)
  | _, _ => (word, rest)

end Scalar

end CallGrammar.Toml
