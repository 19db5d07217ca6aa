import CallGrammar.Ast.Dump
import CallGrammar.Ast.Outline
import CallGrammar.Configuration
import CallGrammar.Parser
import CallGrammar.Report

/-!
# CallGrammar.Command

The command line.

1. `lex FILE` lists the tokens of a source and their errors; `parse FILE` shows
   its tree; `check FILE` says whether it has one.
2. `parse` and `check` take `--config FILE` once and `--statement-call NAME` any
   number of times; `parse` takes `--verbose` or `-v` once.  An option stands
   before or after the file, its value after it or after an equals sign.  After
   `--` everything is a file.
3. The source is read before the configuration.

Nothing is logged, and reports have no colours.  Misused arguments are answered with one
fixed line; there is no help on the options, so asking for it is misuse too.
-/

namespace CallGrammar

/-! ## arguments -/

/-- What `parse` and `check` are told about the grammar. -/
structure GrammarOptions where
  config : Option String
  statementCalls : List String
  deriving DecidableEq

inductive Command where
  | version
  | lex (file : String)
  | parse (file : String) (verbose : Bool) (options : GrammarOptions)
  | check (file : String) (options : GrammarOptions)
  deriving DecidableEq

namespace Command

/-- What the arguments of a subcommand give. -/
structure Arguments where
  files : List String
  verbose : Bool
  config : Option String
  statementCalls : List String

/-- Which options a subcommand has. -/
structure Accepted where
  verbose : Bool
  grammar : Bool

namespace Arguments

def none : Arguments := ⟨[], false, .none, []⟩

/-- A further file, whose path must not be empty. -/
def addFile (a : Arguments) (file : String) : Option Arguments :=
  if file.isEmpty then .none else some { a with files := a.files ++ [file] }

def setVerbose (a : Arguments) : Option Arguments :=
  if a.verbose then .none else some { a with verbose := true }

/-- The value of an option with this name. -/
def addOption (a : Arguments) (name value : String) : Option Arguments :=
  if name = "--config" then
    if a.config.isSome || value.isEmpty then .none else some { a with config := some value }
  else if name = "--statement-call" then
    some { a with statementCalls := a.statementCalls ++ [value] }
  else .none

end Arguments

/-- The name of a long option and the value after its first equals sign. -/
def splitOption (argument : String) : String × Option String :=
  let cs := argument.toList
  match cs.dropWhile (· != '=') with
  | _ :: value => (String.ofList (cs.takeWhile (· != '=')), some (String.ofList value))
  | [] => (argument, none)

/-- Arguments that begin with a dash, other than a dash alone, are no values. -/
def isFlag (argument : String) : Bool := argument.startsWith "-" && argument != "-"

/-- Read the arguments of a subcommand; there is none if they are misused. -/
def readArguments (accepted : Accepted) (a : Arguments) : List String → Option Arguments
  | [] => some a
  | "--" :: rest => rest.foldlM Arguments.addFile a
  | argument :: rest =>
    if !isFlag argument then (a.addFile argument).bind (readArguments accepted · rest)
    else if argument = "-v" || argument = "--verbose" then
      if accepted.verbose then a.setVerbose.bind (readArguments accepted · rest) else none
    else if !accepted.grammar then none
    else
      match splitOption argument, rest with
      | (name, some value), rest => (a.addOption name value).bind (readArguments accepted · rest)
      | (_, none), [] => none
      | (name, none), value :: rest =>
        if isFlag value then none
        else (a.addOption name value).bind (readArguments accepted · rest)

/-- The command that the arguments give; there is none if they are misused. -/
def ofArgs : List String → Option Command
  | "lex" :: rest => do
    match (← readArguments ⟨false, false⟩ .none rest).files with
    | [file] => some (.lex file)
    | _ => none
  | "parse" :: rest => do
    let a ← readArguments ⟨true, true⟩ .none rest
    match a.files with
    | [file] => some (.parse file a.verbose ⟨a.config, a.statementCalls⟩)
    | _ => none
  | "check" :: rest => do
    let a ← readArguments ⟨false, true⟩ .none rest
    match a.files with
    | [file] => some (.check file ⟨a.config, a.statementCalls⟩)
    | _ => none
  | argument :: _ =>
    if argument = "--version" || argument.startsWith "-V" then some .version else none
  | [] => none

end Command

/-! ## results -/

/-- What a run of the program leaves. -/
structure RunResult where
  code : Nat
  stdout : String
  stderr : String
  deriving DecidableEq

namespace RunResult

def success (stdout : String) : RunResult := ⟨0, stdout, ""⟩

def failure (stderr : String) : RunResult := ⟨1, "", stderr⟩

/-- The arguments were misused. -/
def misuse : RunResult := ⟨2, "", "usage: egram (lex | parse | check) [OPTIONS] FILE\n"⟩

end RunResult

/-! ## running -/

/-- A token in a listing. -/
def Token.listed (t : Token Span) : String :=
  let payload := match t.kind.payload with
    | some s => "(" ++ Text.quoted s ++ ")"
    | none => ""
  "  " ++ t.kind.label ++ payload ++ " @ Span \x7b start: " ++ toString t.span.start ++ ", end: "
    ++ toString t.span.stop ++ " \x7d\n"

namespace Command

/-- The tokens of a source and its lexical errors. -/
def listing (source : String) : RunResult :=
  let tokens := Token.ofText source
  let errors := Token.errors tokens
  let listed := "Tokens (" ++ toString tokens.length ++ "):\n" ++ String.join (tokens.map Token.listed)
  if errors.isEmpty then .success listed
  else
    ⟨1, listed ++ "\nLexer errors (" ++ toString errors.length ++ "):\n"
      ++ String.join (errors.map fun e => "  " ++ e.message ++ "\n"), ""⟩

/-- The tree of a source, shown by `display`, or the report of its error. -/
def outcome (file source : String) (calls : StatementCalls)
    (display : Program Span → String) : RunResult :=
  match CallGrammar.parse calls source with
  | .ok program => .success (display program ++ "\n")
  | .error e => .failure (Report.render file source e)

variable {m : Type → Type} [Monad m]

/-- Read a source and go on with its text. -/
def withSource (files : Files m) (file : String) (next : String → m RunResult) :
    m RunResult := do
  match ← files.read file with
  | .ok source => next source
  | .error failure =>
    return .failure ("Error reading file '" ++ file ++ "': " ++ failure.reason ++ "\n")

/-- Find the functions that take several arguments without parentheses. -/
def withCalls (files : Files m) (options : GrammarOptions)
    (next : StatementCalls → RunResult) : m RunResult := do
  match ← Configuration.discover files options.config "." with
  | .ok configuration => return next (configuration.calls options.statementCalls)
  | .error e => return .failure ("Error: " ++ e.message ++ "\n")

def run (files : Files m) : Command → m RunResult
  | version => return .success "egram 0.1.0\n"
  | lex file => withSource files file fun source => return listing source
  | parse file verbose options =>
    withSource files file fun source =>
      withCalls files options fun calls =>
        outcome file source calls fun program =>
          if verbose then program.toOutline.render 0 else program.toPart.format
  | check file options =>
    withSource files file fun source =>
      withCalls files options fun calls =>
        outcome file source calls fun program =>
          "Check passed: " ++ file ++ " (" ++ toString program.body.stmts.length ++ " statements)"

/-- Run the program with these arguments. -/
def runArgs (files : Files m) (args : List String) : m RunResult :=
  match ofArgs args with
  | some command => command.run files
  | none => return .misuse

end Command

end CallGrammar
