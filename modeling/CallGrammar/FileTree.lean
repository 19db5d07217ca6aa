import CallGrammar.Files

/-!
# CallGrammar.FileTree

Directory trees as values, and the files in them.  A path is followed from the
root of the tree, segment by segment; a segment can only be followed from a
directory, `.` and the empty one included, and `..` leads back.  Outside the
tree there are directories without entries.
-/

namespace CallGrammar

inductive FileTree where
  | file (bytes : ByteArray)
  | directory (entries : List (String × FileTree))

namespace FileTree

def empty : FileTree := directory []

def find? (name : String) : List (String × FileTree) → Option FileTree
  | [] => none
  | (n, t) :: rest => if n = name then some t else find? name rest

def put (name : String) (t : FileTree) : List (String × FileTree) → List (String × FileTree)
  | [] => [(name, t)]
  | (n, u) :: rest => if n = name then (n, t) :: rest else (n, u) :: put name t rest

/-- The tree with another one at a path; directories on the way are made. -/
def insert (t : FileTree) (node : FileTree) : List String → FileTree
  | [] => node
  | name :: path =>
    let entries := match t with
      | directory entries => entries
      | file _ => []
    let child := (find? name entries).getD empty
    directory (put name (insert child node path) entries)

/-- The segments of a path. -/
def segments (path : String) : List String :=
  (path.toList.splitOn '/').map String.ofList

/-- Put a file or a directory at a path; an existing directory keeps its
entries. -/
def place (t : FileTree) (path : String) (node : FileTree) : FileTree :=
  t.insert node ((segments path).filter fun s => s != "" && s != ".")

/-- What a path leads to from the directories `stack`, the innermost first. -/
def follow (stack : List FileTree) : List String → Except ReadFailure FileTree
  | [] => .ok (stack.head?.getD empty)
  | segment :: path =>
    match stack.head?.getD empty with
    | file _ => .error .notDirectory
    | directory entries =>
      if segment = "" || segment = "." then follow stack path
      else if segment = ".." then follow stack.tail path
      else
        match find? segment entries with
        | some t => follow (t :: stack) path
        | none => .error .notFound

/-- What a path leads to; an absolute one starts outside the tree. -/
def lookup (t : FileTree) (path : String) : Except ReadFailure FileTree :=
  if path.isEmpty then .error .notFound
  else if path.startsWith "/" then follow [] (segments path)
  else follow [t] (segments path)

/-- The text of the file at a path. -/
def read (t : FileTree) (path : String) : Except ReadFailure String := do
  match ← t.lookup path with
  | file bytes =>
    match String.fromUTF8? bytes with
    | some text => return text
    | none => .error .invalidText
  | directory _ => .error .isDirectory

def isFile (t : FileTree) (path : String) : Bool :=
  match t.lookup path with
  | .ok (file _) => true
  | _ => false

/-- Access to the files of a tree. -/
def files (t : FileTree) : Files Id := ⟨t.read, t.isFile⟩

end FileTree

end CallGrammar
