import GraphQLSyntax.Proofs.WellFormed.Basic

/-!
# Legible documents

A document is legible if its names are names and its floats are numbers, so that a text can show
each of its parts. What the parts make together is not asked for: a legible document can have an
empty selection set, a type that is twice non-null, or an enum value named `true`.

* `Document.WellFormed.legible`: what is well formed is legible.
-/

namespace GraphQLSyntax

variable {m : ValueMode}

/-- A name that is there is a name. -/
def NameOrAbsent (name : Option String) : Prop :=
  ∀ text, name = some text → isName text = true

/-! ## Types -/

namespace TypeRef

def Legible : TypeRef → Prop
  | named name => isName name = true
  | list inner | nonNull inner => inner.Legible

theorem WellFormed.legible {type : TypeRef} (h : type.WellFormed) : type.Legible := by
  induction type with
  | named name => exact h
  | list inner ih => exact ih h
  | nonNull inner ih => exact ih h.1

end TypeRef

/-! ## Values -/

namespace Value

mutual

def Legible : Value m → Prop
  | varRef name _ | enum name => isName name = true
  | boolean _ | int _ | string _ | null => True
  | float value => value.isNaN = false
  | list items => ItemsLegible items
  | object entries => EntriesLegible entries

def ItemsLegible : List (Value m) → Prop
  | [] => True
  | value :: items => value.Legible ∧ ItemsLegible items

def EntriesLegible : List (String × Value m) → Prop
  | [] => True
  | (key, value) :: entries => isName key = true ∧ value.Legible ∧ EntriesLegible entries

end

mutual

theorem WellFormed.legible : ∀ {value : Value m}, value.WellFormed → value.Legible
  | varRef _ _, h | float _, h => by rwa [WellFormed] at h
  | boolean _, _ | int _, _ | string _, _ | null, _ => by simp [Legible]
  | enum _, h => by
    rw [WellFormed] at h
    exact h.1
  | list _, h => by
    rw [WellFormed] at h
    exact ItemsWellFormed.legible h
  | object _, h => by
    rw [WellFormed] at h
    exact EntriesWellFormed.legible h.2

theorem ItemsWellFormed.legible : ∀ {items : List (Value m)},
    ItemsWellFormed items → ItemsLegible items
  | [], _ => trivial
  | _ :: _, h => by
    rw [ItemsWellFormed] at h
    exact ⟨WellFormed.legible h.1, ItemsWellFormed.legible h.2⟩

theorem EntriesWellFormed.legible : ∀ {entries : List (String × Value m)},
    EntriesWellFormed entries → EntriesLegible entries
  | [], _ => trivial
  | (_, _) :: _, h => by
    rw [EntriesWellFormed] at h
    exact ⟨h.1, WellFormed.legible h.2.1, EntriesWellFormed.legible h.2.2⟩

end

/-- A default that is there is legible. -/
def DefaultLegible (default : Option (Value m)) : Prop :=
  ∀ value, default = some value → value.Legible

theorem DefaultWellFormed.legible {default : Option (Value m)} (h : DefaultWellFormed default) :
    DefaultLegible default :=
  fun value hvalue => (h value hvalue).legible

end Value

/-! ## Arguments and directives -/

namespace Argument

def Legible (a : Argument m) : Prop :=
  isName a.name = true ∧ a.value.Legible

theorem WellFormed.legible {a : Argument m} (h : a.WellFormed) : a.Legible :=
  ⟨h.1, h.2.legible⟩

end Argument

namespace Directive

def Legible (d : Directive m) : Prop :=
  isName d.name = true ∧ ∀ a ∈ d.arguments, a.Legible

theorem WellFormed.legible {d : Directive m} (h : d.WellFormed) : d.Legible :=
  ⟨h.1, fun a ha => (h.2 a ha).legible⟩

end Directive

/-! ## Selections -/

namespace Selection

mutual

def Legible : Selection → Prop
  | field aliasName name arguments directives selections =>
    NameOrAbsent aliasName ∧ isName name = true ∧ (∀ a ∈ arguments, a.Legible) ∧
      (∀ d ∈ directives, d.Legible) ∧ AllLegible selections
  | spread name directives => isName name = true ∧ ∀ d ∈ directives, d.Legible
  | inline condition directives selections =>
    isName condition = true ∧ (∀ d ∈ directives, d.Legible) ∧ AllLegible selections

def AllLegible : List Selection → Prop
  | [] => True
  | s :: selections => s.Legible ∧ AllLegible selections

end

theorem allLegible_iff {selections : List Selection} :
    AllLegible selections ↔ ∀ s ∈ selections, s.Legible := by
  induction selections with
  | nil => simp [AllLegible]
  | cons s selections ih => simp [AllLegible, ih]

mutual

theorem WellFormed.legible : ∀ {s : Selection}, s.WellFormed → s.Legible
  | field _ _ _ _ _, h => by
    rw [WellFormed] at h
    obtain ⟨halias, hname, harguments, hdirectives, hselections⟩ := h
    exact ⟨halias, hname, fun a ha => (harguments a ha).legible,
      fun d hd => (hdirectives d hd).legible, AllWellFormed.legible hselections⟩
  | spread _ _, h => by
    rw [WellFormed] at h
    exact ⟨h.1, fun d hd => (h.2.2 d hd).legible⟩
  | inline _ _ _, h => by
    rw [WellFormed] at h
    exact ⟨h.1, fun d hd => (h.2.1 d hd).legible, AllWellFormed.legible h.2.2.2⟩

theorem AllWellFormed.legible : ∀ {selections : List Selection},
    AllWellFormed selections → AllLegible selections
  | [], _ => trivial
  | _ :: _, h => by
    rw [AllWellFormed] at h
    exact ⟨WellFormed.legible h.1, AllWellFormed.legible h.2⟩

end

end Selection

/-! ## Operations and fragments -/

namespace VariableDefinition

def Legible (d : VariableDefinition) : Prop :=
  isName d.name = true ∧ d.type.Legible ∧ Value.DefaultLegible d.default ∧
    ∀ directive ∈ d.directives, directive.Legible

theorem WellFormed.legible {d : VariableDefinition} (h : d.WellFormed) : d.Legible :=
  ⟨h.1, h.2.1.legible, h.2.2.1.legible, fun c hc => (h.2.2.2 c hc).legible⟩

end VariableDefinition

namespace OperationDefinition

def Legible (d : OperationDefinition) : Prop :=
  NameOrAbsent d.name ∧ (∀ v ∈ d.variableDefinitions, v.Legible) ∧
    (∀ directive ∈ d.directives, directive.Legible) ∧ ∀ s ∈ d.selections, s.Legible

theorem WellFormed.legible {d : OperationDefinition} (h : d.WellFormed) : d.Legible :=
  ⟨h.1, fun v hv => (h.2.1 v hv).legible, fun c hc => (h.2.2.1 c hc).legible,
    fun s hs => (h.2.2.2.2 s hs).legible⟩

end OperationDefinition

namespace FragmentDefinition

def Legible (d : FragmentDefinition) : Prop :=
  isName d.name = true ∧ isName d.condition = true ∧
    (∀ directive ∈ d.directives, directive.Legible) ∧ ∀ s ∈ d.selections, s.Legible

theorem WellFormed.legible {d : FragmentDefinition} (h : d.WellFormed) : d.Legible :=
  ⟨h.1, h.2.2.1, fun c hc => (h.2.2.2.1 c hc).legible, fun s hs => (h.2.2.2.2.2 s hs).legible⟩

end FragmentDefinition

/-! ## The type system -/

namespace InputValueDefinition

def Legible (d : InputValueDefinition) : Prop :=
  isName d.name = true ∧ d.type.Legible ∧ Value.DefaultLegible d.default ∧
    ∀ directive ∈ d.directives, directive.Legible

theorem WellFormed.legible {d : InputValueDefinition} (h : d.WellFormed) : d.Legible :=
  ⟨h.1, h.2.1.legible, h.2.2.1.legible, fun c hc => (h.2.2.2 c hc).legible⟩

end InputValueDefinition

namespace FieldDefinition

def Legible (d : FieldDefinition) : Prop :=
  isName d.name = true ∧ (∀ a ∈ d.arguments, a.Legible) ∧ d.type.Legible ∧
    ∀ directive ∈ d.directives, directive.Legible

theorem WellFormed.legible {d : FieldDefinition} (h : d.WellFormed) : d.Legible :=
  ⟨h.1, fun a ha => (h.2.1 a ha).legible, h.2.2.1.legible, fun c hc => (h.2.2.2 c hc).legible⟩

end FieldDefinition

namespace EnumValueDefinition

def Legible (d : EnumValueDefinition) : Prop :=
  isName d.name = true ∧ ∀ directive ∈ d.directives, directive.Legible

theorem WellFormed.legible {d : EnumValueDefinition} (h : d.WellFormed) : d.Legible :=
  ⟨h.1, fun c hc => (h.2 c hc).legible⟩

end EnumValueDefinition

namespace SchemaDefinition

def Legible (d : SchemaDefinition) : Prop :=
  (∀ directive ∈ d.directives, directive.Legible) ∧
    ∀ entry ∈ d.operationTypes, isName entry.2 = true

theorem WellFormed.legible {d : SchemaDefinition} (h : d.WellFormed) : d.Legible :=
  ⟨fun c hc => (h.1 c hc).legible, h.2.2.1⟩

end SchemaDefinition

namespace TypeBody

def Legible : TypeBody → Prop
  | scalar => True
  | object interfaces fields | interface interfaces fields =>
    (∀ name ∈ interfaces, isName name = true) ∧ ∀ field ∈ fields, field.Legible
  | union members => ∀ name ∈ members, isName name = true
  | enum values => ∀ value ∈ values, value.Legible
  | input fields => ∀ field ∈ fields, field.Legible

theorem WellFormed.legible {body : TypeBody} (h : body.WellFormed) : body.Legible := by
  cases body with
  | scalar => trivial
  | object _ fields | interface _ fields => exact ⟨h.1, fun f hf => (h.2 f hf).legible⟩
  | union members => exact h
  | enum values => exact fun v hv => (h v hv).legible
  | input fields => exact fun f hf => (h f hf).legible

end TypeBody

namespace TypeDefinition

def Legible (d : TypeDefinition) : Prop :=
  isName d.name = true ∧ (∀ directive ∈ d.directives, directive.Legible) ∧ d.body.Legible

theorem WellFormed.legible {d : TypeDefinition} (h : d.WellFormed) : d.Legible :=
  ⟨h.1, fun c hc => (h.2.1 c hc).legible, h.2.2.1.legible⟩

end TypeDefinition

namespace DirectiveDefinition

def Legible (d : DirectiveDefinition) : Prop :=
  isName d.name = true ∧ ∀ a ∈ d.arguments, a.Legible

theorem WellFormed.legible {d : DirectiveDefinition} (h : d.WellFormed) : d.Legible :=
  ⟨h.1, fun a ha => (h.2.1 a ha).legible⟩

end DirectiveDefinition

/-! ## Documents -/

namespace Definition

def Legible : Definition → Prop
  | operation d => d.Legible
  | fragment d => d.Legible
  | schema d => d.Legible
  | type d => d.Legible
  | directive d => d.Legible

theorem WellFormed.legible {d : Definition} (h : d.WellFormed) : d.Legible := by
  cases d with
  | operation d => exact OperationDefinition.WellFormed.legible h
  | fragment d => exact FragmentDefinition.WellFormed.legible h
  | schema d => exact SchemaDefinition.WellFormed.legible h
  | type d => exact TypeDefinition.WellFormed.legible h
  | directive d => exact DirectiveDefinition.WellFormed.legible h

end Definition

namespace Document

/-- All names of the document are names, and all its floats are numbers. -/
def Legible (d : Document) : Prop :=
  ∀ definition ∈ d.definitions, definition.Legible

theorem WellFormed.legible {d : Document} (h : d.WellFormed) : d.Legible :=
  fun definition hdefinition => (h definition hdefinition).legible

end Document

end GraphQLSyntax
