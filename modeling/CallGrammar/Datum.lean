import CallGrammar.Decimal.Style
import CallGrammar.Text.Quoted

/-!
# CallGrammar.Datum

Values of a data format, each with the offset at which it begins, and what can
be wrong with one when a certain shape is asked for.
-/

namespace CallGrammar

mutual

/-- A value; `place` counts the characters before it. -/
inductive Datum where
  | null (place : Nat)
  | boolean (place : Nat) (value : Bool)
  | integer (place : Nat) (value : Int)
  | float (place : Nat) (value : Float)
  | string (place : Nat) (value : String)
  | sequence (place : Nat) (items : List Datum)
  /-- A table, its members in the order they were given. -/
  | table (place : Nat) (members : List Member)

/-- A key, the number of characters before it, and its value. -/
structure Member where
  key : String
  keyPlace : Nat
  value : Datum

end

/-! ## shapes -/

/-- What a value is asked to be. -/
inductive Shape where
  | text | boolean | sequence | settings | configuration
  deriving DecidableEq

def Shape.describe : Shape → String
  | text => "a string"
  | boolean => "a boolean"
  | sequence => "a sequence"
  | settings => "struct ParserSettings"
  | configuration => "struct EgramConfig"

namespace Datum

def place : Datum → Nat
  | null p | boolean p _ | integer p _ | float p _ | string p _ | sequence p _ | table p _ => p

/-- The formats that values are given in. -/
inductive Format where
  | json | toml
  deriving DecidableEq

/-- How messages write the numbers of a format.  Those of JSON are written with
all their places from 0.00001 up to sixteen places before the point, and the
even one of two equally near decimals is taken; those of TOML are always written
with all their places, and the greater one is taken. -/
def Format.decimals : Format → Decimal.Style
  | json => ⟨.even, fun e => -5 ≤ e && e ≤ 15⟩
  | toml => ⟨.up, fun _ => true⟩

/-- How a message refers to a value that has the wrong shape. -/
def describe (f : Format) : Datum → String
  | null _ => "null"
  | boolean _ b => "boolean `" ++ (if b then "true" else "false") ++ "`"
  | integer _ n => "integer `" ++ toString n ++ "`"
  | float _ x => "floating point `" ++ f.decimals.write x ++ "`"
  | string _ s => "string " ++ Text.quoted s
  | table _ _ => "map"
  | sequence _ _ => "sequence"

end Datum

/-- Why a value does not have the shape that was asked for. -/
inductive Mismatch where
  /-- A key that the record does not have, and the keys it has. -/
  | unknownField (place : Nat) (name : String) (fields : List String)
  | invalidType (value : Datum) (expected : Shape)

namespace Mismatch

/-- Where the fault lies: the key or the value that does not fit. -/
def place : Mismatch → Nat
  | unknownField p _ _ => p
  | invalidType value _ => value.place

/-- Keys as a message lists them. -/
def listFields (fields : List String) : String :=
  " or ".intercalate (fields.map fun f => "`" ++ f ++ "`")

/-- The message about a value given in this format. -/
def message (f : Datum.Format) : Mismatch → String
  | unknownField _ name fields =>
    "unknown field `" ++ name ++ "`, expected " ++ listFields fields
  | invalidType value expected =>
    "invalid type: " ++ value.describe f ++ ", expected " ++ expected.describe

end Mismatch

end CallGrammar
