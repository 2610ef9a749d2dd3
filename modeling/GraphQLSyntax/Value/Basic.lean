import GraphQLSyntax.Double.Basic
import GraphQLSyntax.Entries

/-!
# Values

Values stand where a document gives an input: in arguments, and as defaults. Some places admit
references to variables (dynamic values), the others do not (constant values), so values are
indexed by a mode and only a dynamic one can be a reference.

* `hasVariables_const`: there are no references in a constant value.
-/

namespace GraphQLSyntax

/-- Whether values may refer to variables. -/
inductive ValueMode
  | const
  | dynamic
deriving DecidableEq, Repr

inductive Value (m : ValueMode)
  /-- A reference to a variable, without its dollar sign. -/
  | varRef (name : String) (allowed : m = .dynamic)
  | boolean (value : Bool)
  | int (value : Int64)
  | float (value : Double)
  | string (value : String)
  | enum (name : String)
  | null
  | list (items : List (Value m))
  | object (entries : List (String × Value m))

namespace Value

variable {m : ValueMode}

/-- An object with the entries that these pairs leave. -/
def ofPairs (pairs : List (String × Value m)) : Value m :=
  .object (Entries.ofPairs pairs)

def isNull : Value m → Bool
  | null => true
  | _ => false

/-! ## References -/

mutual

/-- Whether a variable is referred to anywhere in the value. -/
def hasVariables : Value m → Bool
  | varRef _ _ => true
  | list items => anyHasVariables items
  | object entries => anyEntryHasVariables entries
  | _ => false

def anyHasVariables : List (Value m) → Bool
  | [] => false
  | value :: items => value.hasVariables || anyHasVariables items

def anyEntryHasVariables : List (String × Value m) → Bool
  | [] => false
  | (_, value) :: entries => value.hasVariables || anyEntryHasVariables entries

end

/-! ## Constants as dynamic values -/

mutual

/-- A constant value in a place that admits references. -/
def widen : Value .const → Value .dynamic
  | boolean value => boolean value
  | int value => int value
  | float value => float value
  | string value => string value
  | enum name => enum name
  | null => null
  | list items => list (widenItems items)
  | object entries => object (widenEntries entries)

def widenItems : List (Value .const) → List (Value .dynamic)
  | [] => []
  | value :: items => value.widen :: widenItems items

def widenEntries : List (String × Value .const) → List (String × Value .dynamic)
  | [] => []
  | (key, value) :: entries => (key, value.widen) :: widenEntries entries

end

theorem widenItems_eq (items : List (Value .const)) : widenItems items = items.map widen := by
  induction items with
  | nil => rfl
  | cons value items ih => rw [widenItems, ih, List.map_cons]

theorem widenEntries_eq (entries : List (String × Value .const)) :
    widenEntries entries = entries.map fun entry => (entry.1, entry.2.widen) := by
  induction entries with
  | nil => rfl
  | cons entry entries ih => rw [widenEntries, ih, List.map_cons]

mutual

/-- A constant value refers to no variable. -/
theorem hasVariables_const : ∀ value : Value .const, value.hasVariables = false
  | boolean _ | int _ | float _ | string _ | enum _ | null => rfl
  | list items => by rw [hasVariables]; exact anyHasVariables_const items
  | object entries => by rw [hasVariables]; exact anyEntryHasVariables_const entries

theorem anyHasVariables_const : ∀ items : List (Value .const), anyHasVariables items = false
  | [] => rfl
  | value :: items => by
    rw [anyHasVariables, hasVariables_const value, anyHasVariables_const items]; rfl

theorem anyEntryHasVariables_const :
    ∀ entries : List (String × Value .const), anyEntryHasVariables entries = false
  | [] => rfl
  | (_, value) :: entries => by
    rw [anyEntryHasVariables, hasVariables_const value, anyEntryHasVariables_const entries]; rfl

end

end Value

end GraphQLSyntax
