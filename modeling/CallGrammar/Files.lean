/-!
# CallGrammar.Files

Reading text files by their paths: what it needs, and how it fails.
-/

namespace CallGrammar

/-- Why a file has no text. -/
inductive ReadFailure where
  | notFound
  | isDirectory
  | notDirectory
  | invalidText
  | other (reason : String)
  deriving DecidableEq

def ReadFailure.reason : ReadFailure → String
  | notFound => "No such file or directory (os error 2)"
  | isDirectory => "Is a directory (os error 21)"
  | notDirectory => "Not a directory (os error 20)"
  | invalidText => "stream did not contain valid UTF-8"
  | other reason => reason

/-- Access to files from within `m`. -/
structure Files (m : Type → Type) where
  read : String → m (Except ReadFailure String)
  isFile : String → m Bool

end CallGrammar
