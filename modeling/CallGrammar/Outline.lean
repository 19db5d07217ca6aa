import CallGrammar.Text.Quoted

/-!
# CallGrammar.Outline

Structured values written in full: every field and element on a line of its
own, four spaces deeper than what holds it, and followed by a comma.
-/

namespace CallGrammar

inductive Outline where
  /-- A value without parts. -/
  | atom (text : String)
  /-- A name with named fields. -/
  | record (name : String) (fields : List (String × Outline))
  /-- A name with one part. -/
  | variant (name : String) (part : Outline)
  | list (items : List Outline)
  | pair (first second : Outline)

namespace Outline

/-- A text as a value. -/
def text (s : String) : Outline := atom (Text.quoted s)

/-- A number as a value. -/
def number (n : Nat) : Outline := atom (toString n)

/-- A value that may be missing. -/
def option : Option Outline → Outline
  | none => atom "None"
  | some o => variant "Some" o

/-- A new line at a level. -/
def newline (level : Nat) : String :=
  String.ofList ('\n' :: List.replicate (4 * level) ' ')

mutual

/-- The value written at a level. -/
def render (level : Nat) : Outline → String
  | atom s => s
  | record name fields =>
    name ++ " \x7b" ++ renderFields (level + 1) fields ++ newline level ++ "\x7d"
  | variant name part =>
    name ++ "(" ++ newline (level + 1) ++ render (level + 1) part ++ "," ++ newline level ++ ")"
  | list [] => "[]"
  | list items => "[" ++ renderItems (level + 1) items ++ newline level ++ "]"
  | pair first second =>
    "(" ++ newline (level + 1) ++ render (level + 1) first ++ "," ++ newline (level + 1)
      ++ render (level + 1) second ++ "," ++ newline level ++ ")"

def renderFields (level : Nat) : List (String × Outline) → String
  | [] => ""
  | (name, value) :: rest =>
    newline level ++ name ++ ": " ++ render level value ++ "," ++ renderFields level rest

def renderItems (level : Nat) : List Outline → String
  | [] => ""
  | item :: rest => newline level ++ render level item ++ "," ++ renderItems level rest

end

end Outline

end CallGrammar
