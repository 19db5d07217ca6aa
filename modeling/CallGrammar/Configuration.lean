import CallGrammar.Files
import CallGrammar.Settings
import CallGrammar.Toml.Document

/-!
# CallGrammar.Configuration

Configuration files.  A configuration is a TOML document with one table,
`parser`, that holds the settings of the grammar; what it leaves out has its
default.  It is read from a file that is named, or else from the file of the
default name in a directory, if there is one.

The message of an error is one line.  Of a file that is no document, or not of the
right shape, it gives the place at most: neither the line that is wrong nor what was
expected there is part of it.
-/

namespace CallGrammar

/-- What a configuration file says. -/
structure Configuration where
  settings : Settings
  deriving DecidableEq

/-- Why there is no configuration at a path. -/
inductive ConfigError where
  | unreadable (path : String) (failure : ReadFailure)
  /-- The file is no TOML document. -/
  | malformed (path : String)
  /-- The document does not have the shape of a configuration; line and column
  count from one. -/
  | unsuitable (path : String) (line column : Nat) (mismatch : Mismatch)

namespace ConfigError

def invalidFile (path : String) : String :=
  "invalid config file '" ++ path ++ "': TOML parse error"

def message : ConfigError → String
  | unreadable path failure =>
    "failed to read config file '" ++ path ++ "': " ++ failure.reason
  | malformed path => invalidFile path
  | unsuitable path line column _ =>
    invalidFile path ++ " at line " ++ toString line ++ ", column " ++ toString column

end ConfigError

namespace Configuration

def default : Configuration := ⟨.default⟩

def fields : List String := ["parser"]

/-- The configuration with one member of the document taken in. -/
def withMember (c : Configuration) (m : Member) : Except Mismatch Configuration :=
  if m.key = "parser" then return { c with settings := ← Settings.ofDatum m.value }
  else .error (.unknownField m.keyPlace m.key fields)

def ofDatum : Datum → Except Mismatch Configuration
  | .table _ members => members.foldlM withMember default
  | d => .error (.invalidType d .configuration)

/-- The line and the column of the character at an offset, both from one. -/
def position (text : String) (offset : Nat) : Nat × Nat :=
  let before := text.toList.take offset
  (before.count '\n' + 1, (before.reverse.takeWhile (· != '\n')).length + 1)

/-- The configuration that the text of a file gives. -/
def ofToml (text path : String) : Except ConfigError Configuration :=
  match Toml.parse? text with
  | none => .error (.malformed path)
  | some datum =>
    match ofDatum datum with
    | .ok c => .ok c
    | .error mismatch =>
      let (line, column) := position text mismatch.place
      .error (.unsuitable path line column mismatch)

/-! ## files -/

/-- The name of a configuration file that need not be given. -/
def defaultFile : String := "egram.toml"

/-- The path of a file in a directory. -/
def inDirectory (directory name : String) : String :=
  if directory.isEmpty || directory.endsWith "/" then directory ++ name
  else directory ++ "/" ++ name

variable {m : Type → Type} [Monad m]

def ofFile (files : Files m) (path : String) : m (Except ConfigError Configuration) := do
  match ← files.read path with
  | .ok text => return ofToml text path
  | .error failure => return .error (.unreadable path failure)

/-- The configuration of the file that is named, or else of the file of the
default name in `directory`, or else the default. -/
def discover (files : Files m) (named : Option String) (directory : String) :
    m (Except ConfigError Configuration) := do
  match named with
  | some path => ofFile files path
  | none =>
    let path := inDirectory directory defaultFile
    if ← files.isFile path then ofFile files path else return .ok default

/-- The functions that take several arguments without parentheses, with the
names in `extra` added. -/
def calls (c : Configuration) (extra : List String) : StatementCalls :=
  c.settings.calls.extend extra

end Configuration

end CallGrammar
