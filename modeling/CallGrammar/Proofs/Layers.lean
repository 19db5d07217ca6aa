import CallGrammar.Configuration
import CallGrammar.Proofs.ByteOrder
import Mathlib.Data.List.Sort

/-!
# CallGrammar.Proofs.Layers

Where the names in a set of statement calls come from.  A set is put together from the
default names, those of a configuration, those added to it, and later changes.

1. A name is in the set if one of these layers has it, and for no other reason.
2. The listing of the set has the names in the order of their bytes, each of them once.
3. So neither the order of names and changes matters, nor how often they are made: sets with
   the same names are equal.
-/

namespace CallGrammar

namespace StatementCalls

/-! ## names of a set -/

section

variable {calls calls' : StatementCalls} {name : String} {names : List String}

@[simp] theorem notMem_empty : name ∉ empty := List.not_mem_nil

@[simp] theorem mem_allow {added : String} :
    name ∈ calls.allow added ↔ name = added ∨ name ∈ calls :=
  mem_insertSorted

/-- A set that is extended has its own names and the given ones. -/
@[simp] theorem mem_extend : name ∈ calls.extend names ↔ name ∈ calls ∨ name ∈ names := by
  induction names generalizing calls with
  | nil => simp [extend]
  | cons added names ih =>
    have hstep : calls.extend (added :: names) = (calls.allow added).extend names := rfl
    rw [hstep, ih, mem_allow, List.mem_cons]
    grind

/-- The set of a list has the names of the list. -/
@[simp] theorem mem_ofList : name ∈ ofList names ↔ name ∈ names := by
  simp [ofList]

@[simp] theorem mem_default : name ∈ default ↔ name ∈ defaultNames := mem_ofList

/-- A set is told by its names. -/
theorem eq_iff : calls = calls' ↔ ∀ name, name ∈ calls ↔ name ∈ calls' := by
  refine ⟨fun h => h ▸ fun _ => Iff.rfl, fun h => ?_⟩
  have hlt : Std.Irrefl (α := String) (· < ·) := ⟨String.lt_irrefl⟩
  have hasymm : Std.Asymm (α := String) (· < ·) := ⟨fun _ _ => String.lt_asymm⟩
  obtain ⟨names, hincreasing⟩ := calls
  obtain ⟨names', hincreasing'⟩ := calls'
  obtain rfl : names = names' := hincreasing.eq_of_mem_iff hincreasing' h
  rfl

end

/-! ## changes -/

/-- A change of a set that is there. -/
inductive Change where
  | allow (name : String)
  | extend (names : List String)

/-- The names that a change adds. -/
def Change.names : Change → List String
  | allow name => [name]
  | extend names => names

def change (calls : StatementCalls) : Change → StatementCalls
  | .allow name => calls.allow name
  | .extend names => calls.extend names

section

variable {calls : StatementCalls} {name : String}

/-- A change adds its names. -/
theorem mem_change {c : Change} : name ∈ calls.change c ↔ name ∈ calls ∨ name ∈ c.names := by
  cases c with
  | allow added => simp [change, Change.names, or_comm]
  | extend names => exact mem_extend

/-- Changes add all of their names. -/
theorem mem_changes {changes : List Change} :
    name ∈ changes.foldl change calls ↔ name ∈ calls ∨ ∃ c ∈ changes, name ∈ c.names := by
  induction changes generalizing calls with
  | nil => simp
  | cons c changes ih =>
    rw [List.foldl_cons, ih, mem_change, List.exists_mem_cons_iff, or_assoc]

end

end StatementCalls

/-- The names that the settings stand for. -/
theorem Settings.mem_calls {s : Settings} {name : String} :
    name ∈ s.calls ↔ (name ∈ StatementCalls.defaultNames ∧ s.extendDefaults = true) ∨
      name ∈ s.statementCalls := by
  rw [calls, StatementCalls.mem_extend]
  split
  · next h => simp [h]
  · next h => simp [h]

/-! ## layers -/

/-- A configuration, the names added to it, and what is changed later. -/
structure Layers where
  configuration : Configuration
  extra : List String
  changes : List StatementCalls.Change

namespace Layers

variable {l : Layers} {name : String}

/-- The set that comes of all layers. -/
def calls (l : Layers) : StatementCalls :=
  l.changes.foldl StatementCalls.change (l.configuration.calls l.extra)

/-- Whether the default names are taken in. -/
def takesDefaults (l : Layers) : Bool := l.configuration.settings.extendDefaults

/-- One of the layers has the name. -/
def Lists (l : Layers) (name : String) : Prop :=
  name ∈ l.configuration.settings.statementCalls ∨ name ∈ l.extra ∨
    ∃ c ∈ l.changes, name ∈ c.names

/-- The set of all layers has the names of each, and the common ones where they are taken. -/
theorem mem_calls : name ∈ l.calls ↔
    (name ∈ StatementCalls.defaultNames ∧ l.takesDefaults = true) ∨ l.Lists name := by
  rw [calls, StatementCalls.mem_changes, Configuration.calls, StatementCalls.mem_extend,
    Settings.mem_calls, or_assoc, or_assoc]
  rfl

/-- **Layers add up**: the set of all layers has the names of each, listed once and in the
order of their bytes; layers with the same names make the same set, in whatever order they
have them, and two sets are the same if they have the same names. -/
theorem mem_names_calls :
    (∀ (l : Layers) (name : String), name ∈ l.calls ↔
      (name ∈ StatementCalls.defaultNames ∧ l.takesDefaults = true) ∨ l.Lists name) ∧
    (∀ (l : Layers) (name : String), name ∈ l.calls.names ↔
      (name ∈ StatementCalls.defaultNames ∧ l.takesDefaults = true) ∨ l.Lists name) ∧
    (∀ l : Layers, l.calls.names.Pairwise fun a b => a.toUTF8.data.toList < b.toUTF8.data.toList) ∧
    (∀ l l' : Layers, l.takesDefaults = l'.takesDefaults →
      (∀ name, l.Lists name ↔ l'.Lists name) → l.calls = l'.calls) ∧
    ∀ calls calls' : StatementCalls, calls = calls' ↔ ∀ name, name ∈ calls ↔ name ∈ calls' := by
  refine ⟨fun _ _ => mem_calls, fun _ _ => mem_calls, fun l => ?_, fun l l' hdefaults hlists => ?_,
    fun _ _ => StatementCalls.eq_iff⟩
  · exact l.calls.increasing.imp Token.toUTF8_lt_of_lt
  · refine StatementCalls.eq_iff.2 fun name => ?_
    rw [mem_calls, mem_calls, hdefaults, hlists]

/-- Names in another order and in another layer, one of them twice. -/
theorem mem_names_calls_twice :
    calls ⟨⟨⟨["b", "a"], false⟩⟩, ["c"], [.allow "a"]⟩
        = calls ⟨⟨⟨["a"], false⟩⟩, ["c"], [.extend ["c", "b"], .allow "a"]⟩ ∧
      (calls ⟨⟨⟨["b", "a"], false⟩⟩, ["c"], [.allow "a"]⟩).names = ["a", "b", "c"] := by
  refine ⟨mem_names_calls.2.2.2.1 _ _ rfl fun name => ?_, by decide⟩
  simp only [Lists, StatementCalls.Change.names, List.mem_cons, List.not_mem_nil, or_false,
    exists_eq_or_imp, exists_eq_left]
  grind

end Layers

end CallGrammar
