/-!
# CallGrammar.Token.Quoted

What a quoted string stands for.  Its inside is a sequence of units, each a
plain character or a backslash with one more character:

1. in both forms, a backslash gives the backslash or the quote that follows it;
2. in double quotes, `\n`, `\t`, `\r` and `\$` give a line feed, a tab, a
   carriage return and a dollar sign;
3. any other pair stands for its two characters.
-/

namespace CallGrammar.Quoted

/-- What a backslash followed by `c` stands for between two `quote`s. -/
def unescape (quote c : Char) : List Char :=
  if c = '\\' then ['\\']
  else if c = quote then [quote]
  else if quote = '"' then
    match c with
    | 'n' => ['\n']
    | 't' => ['\t']
    | 'r' => ['\r']
    | '$' => ['$']
    | c => ['\\', c]
  else ['\\', c]

/-- The value of the characters between two `quote`s. -/
def decode (quote : Char) : List Char → List Char
  | [] => []
  | ['\\'] => ['\\']
  | '\\' :: c :: cs => unescape quote c ++ decode quote cs
  | c :: cs => c :: decode quote cs

/-- The value of a whole literal, from its opening to its closing quote. -/
def value (quote : Char) (literal : List Char) : String :=
  String.ofList (decode quote (literal.drop 1).dropLast)

end CallGrammar.Quoted
