import CallGrammar.Datum
import CallGrammar.StatementCalls

/-!
# CallGrammar.Settings

The settings of the grammar, and how they are read from data.  A record is
given as a table, in which fields may be missing but no others may stand, or as
a sequence of its fields in order; the first thing that does not fit decides.
-/

namespace CallGrammar

/-- Which functions take several arguments without parentheses. -/
structure Settings where
  statementCalls : List String
  /-- Whether the default functions are among them, too. -/
  extendDefaults : Bool
  deriving DecidableEq

namespace Settings

/-- The settings where nothing is said. -/
def default : Settings := ⟨[], true⟩

/-- The set of functions that the settings describe. -/
def calls (s : Settings) : StatementCalls :=
  (if s.extendDefaults then StatementCalls.default else .empty).extend s.statementCalls

end Settings

/-! ## reading data -/

namespace Datum

def toText : Datum → Except Mismatch String
  | string _ s => .ok s
  | d => .error (.invalidType d .text)

def toBoolean : Datum → Except Mismatch Bool
  | boolean _ b => .ok b
  | d => .error (.invalidType d .boolean)

def toTexts : Datum → Except Mismatch (List String)
  | sequence _ items => items.mapM toText
  | d => .error (.invalidType d .sequence)

end Datum

namespace Settings

def fields : List String := ["statement_calls", "extend_defaults"]

/-- The settings with one field replaced by a member of a table. -/
def withMember (s : Settings) (m : Member) : Except Mismatch Settings :=
  if m.key = "statement_calls" then
    return { s with statementCalls := ← m.value.toTexts }
  else if m.key = "extend_defaults" then
    return { s with extendDefaults := ← m.value.toBoolean }
  else .error (.unknownField m.keyPlace m.key fields)

/-- The settings that a value gives. -/
def ofDatum : Datum → Except Mismatch Settings
  | .table _ members => members.foldlM withMember default
  | .sequence _ [] => .ok default
  | .sequence _ [names] => return { default with statementCalls := ← names.toTexts }
  | .sequence _ (names :: extend :: _) => do
    let statementCalls ← names.toTexts
    return ⟨statementCalls, ← extend.toBoolean⟩
  | d => .error (.invalidType d .settings)

end Settings

end CallGrammar
