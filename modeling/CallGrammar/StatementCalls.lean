/-!
# CallGrammar.StatementCalls

The functions that may be invoked in statement position with several arguments
and no parentheses.  The set is kept as the increasing list of its names, so
two sets with the same names are equal.
-/

namespace CallGrammar

/-- A finite set of names, listed in increasing order of their characters. -/
structure StatementCalls where
  names : List String
  increasing : names.Pairwise (· < ·)
  deriving DecidableEq

namespace StatementCalls

/-! ## ordered insertion -/

/-- The list with `name` put at its place, unless it is there already. -/
def insertSorted (name : String) : List String → List String
  | [] => [name]
  | x :: xs =>
    if name < x then name :: x :: xs
    else if name = x then x :: xs
    else x :: insertSorted name xs

/-- A name that is put in is there, with those that were. -/
theorem mem_insertSorted {a name : String} {xs : List String} :
    a ∈ insertSorted name xs ↔ a = name ∨ a ∈ xs := by
  induction xs with
  | nil => simp [insertSorted]
  | cons x xs ih =>
    unfold insertSorted
    split
    · simp
    · split
      · simp_all
      · simp only [List.mem_cons, ih]
        grind

/-- The names stay in order, each of them once. -/
theorem pairwise_insertSorted {name : String} {xs : List String}
    (h : xs.Pairwise (· < ·)) : (insertSorted name xs).Pairwise (· < ·) := by
  induction xs with
  | nil => simp [insertSorted]
  | cons x xs ih =>
    obtain ⟨hx, hxs⟩ := List.pairwise_cons.1 h
    unfold insertSorted
    split
    · rename_i hlt
      refine List.pairwise_cons.2 ⟨fun y hy => ?_, h⟩
      rcases List.mem_cons.1 hy with rfl | hy
      · exact hlt
      · exact String.lt_trans hlt (hx y hy)
    · rename_i hlt
      split
      · exact h
      · rename_i hne
        refine List.pairwise_cons.2 ⟨fun y hy => ?_, ih hxs⟩
        rcases mem_insertSorted.1 hy with rfl | hy
        · exact String.not_le.1 fun hle => hne (String.le_antisymm (String.not_lt.1 hlt) hle).symm
        · exact hx y hy

/-! ## the set -/

def empty : StatementCalls := ⟨[], .nil⟩

/-- The set with one more name. -/
def allow (calls : StatementCalls) (name : String) : StatementCalls :=
  ⟨insertSorted name calls.names, pairwise_insertSorted calls.increasing⟩

/-- The set with all of `names`. -/
def extend (calls : StatementCalls) (names : List String) : StatementCalls :=
  names.foldl allow calls

/-- The set of exactly these names. -/
def ofList (names : List String) : StatementCalls := empty.extend names

instance : Membership String StatementCalls := ⟨fun calls name => name ∈ calls.names⟩

instance (calls : StatementCalls) (name : String) : Decidable (name ∈ calls) :=
  inferInstanceAs (Decidable (name ∈ calls.names))

/-- The functions that take arguments without parentheses out of the box. -/
def defaultNames : List String :=
  ["require", "realize", "include", "contain", "tag", "debug", "info", "notice", "warning",
    "err", "fail", "import"]

/-- The set that holds unless a configuration says otherwise. -/
def default : StatementCalls := ofList defaultNames

end StatementCalls

end CallGrammar
