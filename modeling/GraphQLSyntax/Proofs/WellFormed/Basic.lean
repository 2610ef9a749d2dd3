import GraphQLSyntax.Document
import GraphQLSyntax.Proofs.Grammar.Derives
import GraphQLSyntax.Token.Lexeme

/-!
# Well-formed documents

A document can be built by hand in ways that no text stands for: with a name that is none, with an
empty selection set, or with a type that is twice non-null. `Document.WellFormed` excludes these.
The entries of objects and of schemas are those of a map, so their keys are distinct.

`Document.depth` is the largest number of nested selection sets, list values, object values and list
types on any path.

* `listDepth_le`: the depth of a list is bounded exactly if that of each item is.
* `Value.itemsWellFormed_iff` and its likes: lists are well formed exactly if all items are.
-/

namespace GraphQLSyntax

/-- The largest depth in a list. -/
def listDepth {α : Type} (depth : α → Nat) (xs : List α) : Nat :=
  xs.foldr (fun x n => max (depth x) n) 0

@[simp] theorem listDepth_nil {α : Type} (depth : α → Nat) : listDepth depth [] = 0 := rfl

theorem listDepth_le {α : Type} {depth : α → Nat} {xs : List α} {n : Nat} :
    listDepth depth xs ≤ n ↔ ∀ x ∈ xs, depth x ≤ n := by
  induction xs with
  | nil => simp
  | cons x xs ih =>
    show max (depth x) (listDepth depth xs) ≤ n ↔ _
    rw [Nat.max_le, ih]
    simp

@[simp] theorem listDepth_cons {α : Type} (depth : α → Nat) (x : α) (xs : List α) :
    listDepth depth (x :: xs) = max (depth x) (listDepth depth xs) := rfl

@[simp] theorem listDepth_map {α β : Type} (depth : β → Nat) (f : α → β) (xs : List α) :
    listDepth depth (xs.map f) = listDepth (fun x => depth (f x)) xs :=
  List.foldr_map

variable {m : ValueMode}

/-! ## Types -/

namespace TypeRef

/-- Names are names, and a type is non-null at most once. -/
def WellFormed : TypeRef → Prop
  | named name => isName name = true
  | list inner => inner.WellFormed
  | nonNull inner => inner.WellFormed ∧ ∀ type, inner ≠ nonNull type

def depth : TypeRef → Nat
  | named _ => 0
  | list inner => inner.depth + 1
  | nonNull inner => inner.depth

end TypeRef

/-! ## Values -/

namespace Value

mutual

/-- Names are names, enum values are none of the reserved ones, and floats are numbers. -/
def WellFormed : Value m → Prop
  | varRef name _ => isName name = true
  | boolean _ | int _ | string _ | null => True
  | float value => value.isNaN = false
  | enum name => isName name = true ∧ name ≠ "true" ∧ name ≠ "false" ∧ name ≠ "null"
  | list items => ItemsWellFormed items
  | object entries => (entries.map Prod.fst).Nodup ∧ EntriesWellFormed entries

def ItemsWellFormed : List (Value m) → Prop
  | [] => True
  | value :: items => value.WellFormed ∧ ItemsWellFormed items

def EntriesWellFormed : List (String × Value m) → Prop
  | [] => True
  | (key, value) :: entries => isName key = true ∧ value.WellFormed ∧ EntriesWellFormed entries

end

mutual

def depth : Value m → Nat
  | list items => itemsDepth items + 1
  | object entries => entriesDepth entries + 1
  | _ => 0

def itemsDepth : List (Value m) → Nat
  | [] => 0
  | value :: items => max value.depth (itemsDepth items)

def entriesDepth : List (String × Value m) → Nat
  | [] => 0
  | (_, value) :: entries => max value.depth (entriesDepth entries)

end

theorem itemsWellFormed_iff {items : List (Value m)} :
    ItemsWellFormed items ↔ ∀ value ∈ items, value.WellFormed := by
  induction items with
  | nil => simp [ItemsWellFormed]
  | cons value items ih => simp [ItemsWellFormed, ih]

theorem entriesWellFormed_iff {entries : List (String × Value m)} :
    EntriesWellFormed entries ↔
      ∀ entry ∈ entries, isName entry.1 = true ∧ entry.2.WellFormed := by
  induction entries with
  | nil => simp [EntriesWellFormed]
  | cons entry entries ih =>
    rw [EntriesWellFormed, ih, List.forall_mem_cons]
    simp [and_assoc]

theorem itemsDepth_le {items : List (Value m)} {n : Nat} :
    itemsDepth items ≤ n ↔ ∀ value ∈ items, value.depth ≤ n := by
  induction items with
  | nil => simp [itemsDepth]
  | cons value items ih => rw [itemsDepth, Nat.max_le, ih, List.forall_mem_cons]

theorem entriesDepth_le {entries : List (String × Value m)} {n : Nat} :
    entriesDepth entries ≤ n ↔ ∀ entry ∈ entries, entry.2.depth ≤ n := by
  induction entries with
  | nil => simp [entriesDepth]
  | cons entry entries ih => rw [entriesDepth, Nat.max_le, ih, List.forall_mem_cons]

theorem itemsDepth_eq (items : List (Value m)) : itemsDepth items = listDepth depth items := by
  induction items with
  | nil => rfl
  | cons value items ih => rw [itemsDepth, ih, listDepth_cons]

theorem entriesDepth_eq (entries : List (String × Value m)) :
    entriesDepth entries = listDepth (fun entry => entry.2.depth) entries := by
  induction entries with
  | nil => rfl
  | cons entry entries ih => rw [entriesDepth, ih, listDepth_cons]

/-- A default that is there is well formed. -/
def DefaultWellFormed (default : Option (Value m)) : Prop :=
  ∀ value, default = some value → value.WellFormed

def defaultDepth (default : Option (Value m)) : Nat :=
  (default.map depth).getD 0

end Value

/-! ## Arguments and directives -/

namespace Argument

def WellFormed (a : Argument m) : Prop :=
  isName a.name = true ∧ a.value.WellFormed

def depth (a : Argument m) : Nat :=
  a.value.depth

end Argument

namespace Directive

def WellFormed (d : Directive m) : Prop :=
  isName d.name = true ∧ ∀ a ∈ d.arguments, a.WellFormed

def depth (d : Directive m) : Nat :=
  listDepth Argument.depth d.arguments

end Directive

/-! ## Selections -/

namespace Selection

mutual

/-- A spread is of no fragment named `on`, and an inline fragment selects something. -/
def WellFormed : Selection → Prop
  | field aliasName name arguments directives selections =>
    (∀ first, aliasName = some first → isName first = true) ∧ isName name = true ∧
      (∀ a ∈ arguments, a.WellFormed) ∧ (∀ d ∈ directives, d.WellFormed) ∧ AllWellFormed selections
  | spread name directives =>
    isName name = true ∧ name ≠ "on" ∧ ∀ d ∈ directives, d.WellFormed
  | inline condition directives selections =>
    isName condition = true ∧ (∀ d ∈ directives, d.WellFormed) ∧ selections ≠ [] ∧
      AllWellFormed selections

def AllWellFormed : List Selection → Prop
  | [] => True
  | s :: selections => s.WellFormed ∧ AllWellFormed selections

end

mutual

def depth : Selection → Nat
  | field _ _ arguments directives selections =>
    max (listDepth Argument.depth arguments) (max (listDepth Directive.depth directives)
      (if selections.isEmpty then 0 else allDepth selections + 1))
  | spread _ directives => listDepth Directive.depth directives
  | inline _ directives selections =>
    max (listDepth Directive.depth directives) (allDepth selections + 1)

def allDepth : List Selection → Nat
  | [] => 0
  | s :: selections => max s.depth (allDepth selections)

end

theorem allWellFormed_iff {selections : List Selection} :
    AllWellFormed selections ↔ ∀ s ∈ selections, s.WellFormed := by
  induction selections with
  | nil => simp [AllWellFormed]
  | cons s selections ih => simp [AllWellFormed, ih]

theorem allDepth_eq (selections : List Selection) :
    allDepth selections = listDepth depth selections := by
  induction selections with
  | nil => rfl
  | cons s selections ih => rw [allDepth, ih, listDepth_cons]

theorem allDepth_le {selections : List Selection} {n : Nat} :
    allDepth selections ≤ n ↔ ∀ s ∈ selections, s.depth ≤ n := by
  induction selections with
  | nil => simp [allDepth]
  | cons s selections ih => rw [allDepth, Nat.max_le, ih, List.forall_mem_cons]

end Selection

/-! ## Operations and fragments -/

namespace VariableDefinition

def WellFormed (d : VariableDefinition) : Prop :=
  isName d.name = true ∧ d.type.WellFormed ∧ Value.DefaultWellFormed d.default ∧
    ∀ directive ∈ d.directives, directive.WellFormed

def depth (d : VariableDefinition) : Nat :=
  max d.type.depth (max (Value.defaultDepth d.default) (listDepth Directive.depth d.directives))

end VariableDefinition

namespace OperationDefinition

def WellFormed (d : OperationDefinition) : Prop :=
  (∀ name, d.name = some name → isName name = true) ∧
    (∀ v ∈ d.variableDefinitions, v.WellFormed) ∧
    (∀ directive ∈ d.directives, directive.WellFormed) ∧
    d.selections ≠ [] ∧ ∀ s ∈ d.selections, s.WellFormed

def depth (d : OperationDefinition) : Nat :=
  max (listDepth VariableDefinition.depth d.variableDefinitions)
    (max (listDepth Directive.depth d.directives) (listDepth Selection.depth d.selections + 1))

end OperationDefinition

namespace FragmentDefinition

def WellFormed (d : FragmentDefinition) : Prop :=
  isName d.name = true ∧ d.name ≠ "on" ∧ isName d.condition = true ∧
    (∀ directive ∈ d.directives, directive.WellFormed) ∧
    d.selections ≠ [] ∧ ∀ s ∈ d.selections, s.WellFormed

def depth (d : FragmentDefinition) : Nat :=
  max (listDepth Directive.depth d.directives) (listDepth Selection.depth d.selections + 1)

end FragmentDefinition

/-! ## The type system -/

namespace InputValueDefinition

def WellFormed (d : InputValueDefinition) : Prop :=
  isName d.name = true ∧ d.type.WellFormed ∧ Value.DefaultWellFormed d.default ∧
    ∀ directive ∈ d.directives, directive.WellFormed

def depth (d : InputValueDefinition) : Nat :=
  max d.type.depth (max (Value.defaultDepth d.default) (listDepth Directive.depth d.directives))

end InputValueDefinition

namespace FieldDefinition

def WellFormed (d : FieldDefinition) : Prop :=
  isName d.name = true ∧ (∀ a ∈ d.arguments, a.WellFormed) ∧ d.type.WellFormed ∧
    ∀ directive ∈ d.directives, directive.WellFormed

def depth (d : FieldDefinition) : Nat :=
  max (listDepth InputValueDefinition.depth d.arguments)
    (max d.type.depth (listDepth Directive.depth d.directives))

end FieldDefinition

namespace EnumValueDefinition

def WellFormed (d : EnumValueDefinition) : Prop :=
  isName d.name = true ∧ ∀ directive ∈ d.directives, directive.WellFormed

def depth (d : EnumValueDefinition) : Nat :=
  listDepth Directive.depth d.directives

end EnumValueDefinition

namespace SchemaDefinition

/-- A schema has a directive or a type of operation. -/
def WellFormed (d : SchemaDefinition) : Prop :=
  (∀ directive ∈ d.directives, directive.WellFormed) ∧
    (d.operationTypes.map Prod.fst).Nodup ∧ (∀ entry ∈ d.operationTypes, isName entry.2 = true) ∧
    (d.directives ≠ [] ∨ d.operationTypes ≠ [])

def depth (d : SchemaDefinition) : Nat :=
  listDepth Directive.depth d.directives

end SchemaDefinition

namespace TypeBody

def WellFormed : TypeBody → Prop
  | scalar => True
  | object interfaces fields | interface interfaces fields =>
    (∀ name ∈ interfaces, isName name = true) ∧ ∀ field ∈ fields, field.WellFormed
  | union members => ∀ name ∈ members, isName name = true
  | enum values => ∀ value ∈ values, value.WellFormed
  | input fields => ∀ field ∈ fields, field.WellFormed

def depth : TypeBody → Nat
  | object _ fields | interface _ fields => listDepth FieldDefinition.depth fields
  | enum values => listDepth EnumValueDefinition.depth values
  | input fields => listDepth InputValueDefinition.depth fields
  | scalar | union _ => 0

end TypeBody

namespace TypeDefinition

/-- An extension that must add something does. -/
def WellFormed (d : TypeDefinition) : Prop :=
  isName d.name = true ∧ (∀ directive ∈ d.directives, directive.WellFormed) ∧ d.body.WellFormed ∧
    d.AddsIfExtension

def depth (d : TypeDefinition) : Nat :=
  max (listDepth Directive.depth d.directives) d.body.depth

end TypeDefinition

namespace DirectiveDefinition

/-- A directive may stand somewhere. -/
def WellFormed (d : DirectiveDefinition) : Prop :=
  isName d.name = true ∧ (∀ a ∈ d.arguments, a.WellFormed) ∧ d.locations ≠ []

def depth (d : DirectiveDefinition) : Nat :=
  listDepth InputValueDefinition.depth d.arguments

end DirectiveDefinition

/-! ## Documents -/

namespace Definition

def WellFormed : Definition → Prop
  | operation d => d.WellFormed
  | fragment d => d.WellFormed
  | schema d => d.WellFormed
  | type d => d.WellFormed
  | directive d => d.WellFormed

def depth : Definition → Nat
  | operation d => d.depth
  | fragment d => d.depth
  | schema d => d.depth
  | type d => d.depth
  | directive d => d.depth

end Definition

namespace Document

def WellFormed (d : Document) : Prop :=
  ∀ definition ∈ d.definitions, definition.WellFormed

/-- The largest number of nested selection sets, list values, object values and list types. -/
def depth (d : Document) : Nat :=
  listDepth Definition.depth d.definitions

end Document

end GraphQLSyntax
