import CallGrammar.Command

/-!
# CallGrammar.Main

The program: the command line over the files of the machine.
-/

open CallGrammar

/-- Why the machine did not read a file. -/
def readFailureOf : IO.Error → ReadFailure
  | .noFileOrDirectory .. => .notFound
  | .inappropriateType _ 21 _ => .isDirectory
  | .inappropriateType .. => .notDirectory
  | e => .other (toString e)

/-- Read a file of the machine as text. -/
def readMachineFile (path : String) : IO (Except ReadFailure String) := do
  try
    let bytes ← IO.FS.readBinFile path
    match String.fromUTF8? bytes with
    | some text => return .ok text
    | none => return .error .invalidText
  catch e => return .error (readFailureOf e)

/-- The files of the machine; a path at which nothing can be opened, or only a
directory, is no file. -/
def machineFiles : Files IO where
  read := readMachineFile
  isFile path := do
    match ← readMachineFile path with
    | .error .notFound | .error .isDirectory | .error .notDirectory => return false
    | _ => return true

def main (args : List String) : IO UInt32 := do
  let result ← Command.runArgs machineFiles args
  IO.print result.stdout
  IO.eprint result.stderr
  return result.code.toUInt32
