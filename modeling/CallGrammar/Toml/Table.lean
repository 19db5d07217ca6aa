import CallGrammar.Datum

/-!
# CallGrammar.Toml.Table

Building tables from keys, headers and their values.

1. A key is given at most once.
2. A table that a header or braces define is not extended by dotted keys, and
   one that dotted keys define is not extended by a header.
3. A table that exists only as the parent of another may still get a header;
   it then stands after the entries given before.
4. A path through an array of tables leads to its last table.
-/

namespace CallGrammar.Toml

/-- A key, or a segment of one, with the number of characters before it. -/
structure Key where
  name : String
  place : Nat

mutual

/-- What a key of a table stands for. -/
inductive Item where
  | value (value : Datum)
  | table (table : Table)
  | tables (tables : List Table)

/-- A table that is being built.  It has a place if a header or braces define
it; it is `dotted` if dotted keys do; it is implicit if it exists only as the
parent of another table. -/
structure Table where
  place : Option Nat
  isImplicit : Bool
  isDotted : Bool
  entries : List Entry

structure Entry where
  key : Key
  item : Item

end

namespace Table

/-- A table that is the parent of others. -/
def parent (dotted : Bool) : Table := ⟨none, true, dotted, []⟩

/-- A table defined by a header or braces. -/
def defined (place : Nat) : Table := ⟨some place, false, false, []⟩

def find? (t : Table) (key : Key) : Option Item :=
  (t.entries.find? (·.key.name == key.name)).map (·.item)

/-- The table with the item of a key replaced, or added at the end. -/
def put (t : Table) (key : Key) (item : Item) : Table :=
  if (t.find? key).isSome then
    { t with entries := t.entries.map fun e => if e.key.name == key.name then ⟨e.key, item⟩ else e }
  else { t with entries := t.entries ++ [⟨key, item⟩] }

/-- The table without a key. -/
def remove (t : Table) (key : Key) : Table :=
  { t with entries := t.entries.filter (·.key.name != key.name) }

/-- Change the table at the end of a path.  `dotted` says that the path is that
of a dotted key, and not of a header. -/
def modifyAt (dotted : Bool) (change : Table → Option Table) :
    List Key → Table → Option Table
  | [], t => change t
  | key :: path, t =>
    match (t.find? key).getD (.table (parent dotted)) with
    | .value _ => none
    | .table child =>
      if dotted && !child.isImplicit then none
      else (modifyAt dotted change path child).map fun child => t.put key (.table child)
    | .tables children =>
      match children.getLast? with
      | none => none
      | some child =>
        (modifyAt dotted change path child).map fun child =>
          t.put key (.tables (children.dropLast ++ [child]))

/-- A key with its value, as given in a table. -/
structure Assignment where
  path : List Key
  key : Key
  value : Datum

/-- Add a key with its value. -/
def assign (t : Table) (a : Assignment) : Option Table :=
  t.modifyAt true (fun owner =>
    if owner.isDotted == a.path.isEmpty || (owner.find? a.key).isSome then none
    else some (owner.put a.key (.value a.value))) a.path

/-- A table that is implicit until it gets this header, with the keys after it. -/
def withHeader (t : Table) (place : Nat) (assignments : List Assignment) : Option Table :=
  assignments.foldlM assign
    { t with place := some place, isImplicit := false, isDotted := false }

/-- Add a table that a header defines. -/
def addTable (t : Table) (path : List Key) (key : Key) (place : Nat)
    (assignments : List Assignment) : Option Table :=
  t.modifyAt false (fun owner => do
    let base ← match owner.find? key with
      | none => some (parent false)
      | some (.table child) => if child.isImplicit && !child.isDotted then some child else none
      | some _ => none
    let child ← base.withHeader place assignments
    some ((owner.remove key).put key (.table child))) path

/-- Add a table to an array of tables. -/
def addElement (t : Table) (path : List Key) (key : Key) (place : Nat)
    (assignments : List Assignment) : Option Table :=
  t.modifyAt false (fun owner => do
    let children ← match owner.find? key with
      | none => some []
      | some (.tables children) => some children
      | some _ => none
    let child ← (defined place).withHeader place assignments
    some (owner.put key (.tables (children ++ [child])))) path

end Table

/-! ## the finished table -/

/-- The place of an array of tables: that of the first. -/
def Table.placeOfAll (keyPlace : Nat) : List Table → Nat
  | [] => keyPlace
  | t :: _ => t.place.getD keyPlace

mutual

/-- The value of a table; without a place of its own it is found at its key. -/
def Table.toDatum (keyPlace : Nat) : Table → Datum
  | ⟨place, _, _, entries⟩ => .table (place.getD keyPlace) (Entry.toMembers entries)

def Item.toDatum (keyPlace : Nat) : Item → Datum
  | .value value => value
  | .table t => t.toDatum keyPlace
  | .tables ts => .sequence (Table.placeOfAll keyPlace ts) (Table.toDatums keyPlace ts)

def Entry.toMembers : List Entry → List Member
  | [] => []
  | ⟨key, item⟩ :: rest => ⟨key.name, key.place, item.toDatum key.place⟩ :: Entry.toMembers rest

def Table.toDatums (keyPlace : Nat) : List Table → List Datum
  | [] => []
  | t :: ts => t.toDatum keyPlace :: Table.toDatums keyPlace ts

end

end CallGrammar.Toml
