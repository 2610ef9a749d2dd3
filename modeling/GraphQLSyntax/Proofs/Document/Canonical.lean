import GraphQLSyntax.Document
import GraphQLSyntax.Proofs.Value.Canonical

/-!
# Canonical documents

Documents are comparable if no float in them is NaN and no key is twice in an object or a schema. Of
these, those are equivalent that have the same canonical form: values as `Value.canonical` has them,
and the operation types of each schema in the order of their names. All else stays as it is.

* `Definition.canonizes`: this for definitions, each kind from its parts.
* `Document.equality_canonical`: so equivalence of documents is an equivalence relation, and the
  text that a document was read from makes no difference.
-/

namespace GraphQLSyntax

variable {m : ValueMode}

/-! ## Arguments and directives -/

namespace Value

/-- A default that is there is comparable. -/
def DefaultComparable (default : Option (Value m)) : Prop :=
  ∀ value, default = some value → value.Comparable

theorem canonizes_default :
    Canonizes (α := Option (Value m)) DefaultComparable equivDefault (Option.map canonical) := by
  intro x y hx hy
  cases x with
  | none => cases y <;> simp [equivDefault]
  | some x =>
    cases y with
    | none => simp [equivDefault]
    | some y =>
      rw [equivDefault, canonizes (hx x rfl) (hy y rfl), Option.map_some, Option.map_some,
        Option.some.injEq]

end Value

namespace Argument

def Comparable (a : Argument m) : Prop :=
  a.value.Comparable

def canonical (a : Argument m) : Argument m :=
  { a with value := a.value.canonical }

theorem canonizes : Canonizes (α := Argument m) Comparable equiv canonical := by
  intro a b ha hb
  rw [equiv, Bool.and_eq_true, beq_iff_eq, Value.canonizes ha hb, canonical, canonical, mk.injEq]

end Argument

namespace Directive

def Comparable (d : Directive m) : Prop :=
  ∀ a ∈ d.arguments, a.Comparable

def canonical (d : Directive m) : Directive m :=
  { d with arguments := d.arguments.map Argument.canonical }

theorem canonizes : Canonizes (α := Directive m) Comparable equiv canonical := by
  intro c d hc hd
  rw [equiv, Bool.and_eq_true, beq_iff_eq, Argument.canonizes.list hc hd, canonical, canonical,
    mk.injEq]

theorem canonizes_all : Canonizes (α := List (Directive m)) (fun ds => ∀ d ∈ ds, d.Comparable)
    allEquiv (List.map canonical) :=
  canonizes.list

end Directive

/-! ## Selections -/

namespace Selection

mutual

def Comparable : Selection → Prop
  | field _ _ arguments directives selections =>
    (∀ a ∈ arguments, a.Comparable) ∧ (∀ d ∈ directives, d.Comparable) ∧ AllComparable selections
  | spread _ directives => ∀ d ∈ directives, d.Comparable
  | inline _ directives selections => (∀ d ∈ directives, d.Comparable) ∧ AllComparable selections

def AllComparable : List Selection → Prop
  | [] => True
  | s :: selections => s.Comparable ∧ AllComparable selections

end

mutual

def canonical : Selection → Selection
  | field aliasName name arguments directives selections =>
    field aliasName name (arguments.map Argument.canonical) (directives.map Directive.canonical)
      (canonicalAll selections)
  | spread name directives => spread name (directives.map Directive.canonical)
  | inline condition directives selections =>
    inline condition (directives.map Directive.canonical) (canonicalAll selections)

def canonicalAll : List Selection → List Selection
  | [] => []
  | s :: selections => s.canonical :: canonicalAll selections

end

mutual

private theorem canonizes_selection : ∀ {s t : Selection}, s.Comparable → t.Comparable →
    (s.equiv t = true ↔ s.canonical = t.canonical)
  | field _ _ _ _ _, t, hs, ht => by
    cases t with
    | field =>
      rw [Comparable] at hs ht
      rw [equiv, canonical, canonical, field.injEq]
      simp only [Bool.and_eq_true, beq_iff_eq, and_assoc, Argument.canonizes.list hs.1 ht.1,
        Directive.canonizes_all hs.2.1 ht.2.1, canonizes_selections hs.2.2 ht.2.2]
    | _ => simp [equiv, canonical]
  | spread _ _, t, hs, ht => by
    cases t with
    | spread =>
      rw [Comparable] at hs ht
      rw [equiv, canonical, canonical, spread.injEq, Bool.and_eq_true, beq_iff_eq,
        Directive.canonizes_all hs ht]
    | _ => simp [equiv, canonical]
  | inline _ _ _, t, hs, ht => by
    cases t with
    | inline =>
      rw [Comparable] at hs ht
      rw [equiv, canonical, canonical, inline.injEq]
      simp only [Bool.and_eq_true, beq_iff_eq, and_assoc, Directive.canonizes_all hs.1 ht.1,
        canonizes_selections hs.2 ht.2]
    | _ => simp [equiv, canonical]

private theorem canonizes_selections : ∀ {ss ts : List Selection}, AllComparable ss →
    AllComparable ts → (equivAll ss ts = true ↔ canonicalAll ss = canonicalAll ts)
  | [], ts, _, _ => by cases ts <;> simp [equivAll, canonicalAll]
  | s :: ss, ts, hs, ht => by
    cases ts with
    | nil => simp [equivAll, canonicalAll]
    | cons t ts =>
      rw [AllComparable] at hs ht
      rw [equivAll, canonicalAll, canonicalAll, Bool.and_eq_true, canonizes_selection hs.1 ht.1,
        canonizes_selections hs.2 ht.2, List.cons.injEq]

end

theorem canonizes_all : Canonizes AllComparable equivAll canonicalAll :=
  fun _ _ => canonizes_selections

end Selection

/-! ## Operations and fragments -/

namespace VariableDefinition

def Comparable (d : VariableDefinition) : Prop :=
  Value.DefaultComparable d.default ∧ ∀ directive ∈ d.directives, directive.Comparable

def canonical (d : VariableDefinition) : VariableDefinition :=
  { d with
    default := d.default.map Value.canonical
    directives := d.directives.map Directive.canonical }

theorem canonizes : Canonizes Comparable equiv canonical := by
  intro a b ha hb
  rw [equiv, canonical, canonical, mk.injEq]
  simp only [Bool.and_eq_true, beq_iff_eq, and_assoc, Value.canonizes_default ha.1 hb.1,
    Directive.canonizes_all ha.2 hb.2]

end VariableDefinition

namespace OperationDefinition

def Comparable (d : OperationDefinition) : Prop :=
  (∀ v ∈ d.variableDefinitions, v.Comparable) ∧
    (∀ directive ∈ d.directives, directive.Comparable) ∧ Selection.AllComparable d.selections

def canonical (d : OperationDefinition) : OperationDefinition :=
  { d with
    variableDefinitions := d.variableDefinitions.map VariableDefinition.canonical
    directives := d.directives.map Directive.canonical
    selections := Selection.canonicalAll d.selections }

theorem canonizes : Canonizes Comparable equiv canonical := by
  intro a b ha hb
  rw [equiv, canonical, canonical, mk.injEq]
  simp only [Bool.and_eq_true, beq_iff_eq, and_assoc, VariableDefinition.canonizes.list ha.1 hb.1,
    Directive.canonizes_all ha.2.1 hb.2.1, Selection.canonizes_all ha.2.2 hb.2.2]

end OperationDefinition

namespace FragmentDefinition

def Comparable (d : FragmentDefinition) : Prop :=
  (∀ directive ∈ d.directives, directive.Comparable) ∧ Selection.AllComparable d.selections

def canonical (d : FragmentDefinition) : FragmentDefinition :=
  { d with
    directives := d.directives.map Directive.canonical
    selections := Selection.canonicalAll d.selections }

theorem canonizes : Canonizes Comparable equiv canonical := by
  intro a b ha hb
  rw [equiv, canonical, canonical, mk.injEq]
  simp only [Bool.and_eq_true, beq_iff_eq, and_assoc, Directive.canonizes_all ha.1 hb.1,
    Selection.canonizes_all ha.2 hb.2]

end FragmentDefinition

/-! ## The type system -/

namespace InputValueDefinition

def Comparable (d : InputValueDefinition) : Prop :=
  Value.DefaultComparable d.default ∧ ∀ directive ∈ d.directives, directive.Comparable

def canonical (d : InputValueDefinition) : InputValueDefinition :=
  { d with
    default := d.default.map Value.canonical
    directives := d.directives.map Directive.canonical }

theorem canonizes : Canonizes Comparable equiv canonical := by
  intro a b ha hb
  rw [equiv, canonical, canonical, mk.injEq]
  simp only [Bool.and_eq_true, beq_iff_eq, and_assoc, Value.canonizes_default ha.1 hb.1,
    Directive.canonizes_all ha.2 hb.2]

end InputValueDefinition

namespace FieldDefinition

def Comparable (d : FieldDefinition) : Prop :=
  (∀ a ∈ d.arguments, a.Comparable) ∧ ∀ directive ∈ d.directives, directive.Comparable

def canonical (d : FieldDefinition) : FieldDefinition :=
  { d with
    arguments := d.arguments.map InputValueDefinition.canonical
    directives := d.directives.map Directive.canonical }

theorem canonizes : Canonizes Comparable equiv canonical := by
  intro a b ha hb
  rw [equiv, canonical, canonical, mk.injEq]
  simp only [Bool.and_eq_true, beq_iff_eq, and_assoc, InputValueDefinition.canonizes.list ha.1 hb.1,
    Directive.canonizes_all ha.2 hb.2]

end FieldDefinition

namespace EnumValueDefinition

def Comparable (d : EnumValueDefinition) : Prop :=
  ∀ directive ∈ d.directives, directive.Comparable

def canonical (d : EnumValueDefinition) : EnumValueDefinition :=
  { d with directives := d.directives.map Directive.canonical }

theorem canonizes : Canonizes Comparable equiv canonical := by
  intro a b ha hb
  rw [equiv, canonical, canonical, mk.injEq]
  simp only [Bool.and_eq_true, beq_iff_eq, and_assoc, Directive.canonizes_all ha hb]

end EnumValueDefinition

theorem OperationType.name_injective : Function.Injective OperationType.name :=
  fun s t h => Option.some.inj (by rw [← ofName?_name s, ← ofName?_name t, h])

namespace SchemaDefinition

/-- Its directives are comparable, and no type of operation is named twice. -/
def Comparable (d : SchemaDefinition) : Prop :=
  (∀ directive ∈ d.directives, directive.Comparable) ∧ (d.operationTypes.map Prod.fst).Nodup

def canonical (d : SchemaDefinition) : SchemaDefinition :=
  { d with
    directives := d.directives.map Directive.canonical
    operationTypes := Entries.sorted OperationType.name d.operationTypes }

theorem canonizes_operationTypes {xs ys : List (OperationType × String)}
    (hx : (xs.map Prod.fst).Nodup) (hy : (ys.map Prod.fst).Nodup) :
    Entries.sameEntries (· == ·) xs ys = true ↔
      Entries.sorted OperationType.name xs = Entries.sorted OperationType.name ys := by
  rw [Entries.sorted_eq_iff_perm OperationType.name_injective hx,
    Entries.sameEntries_iff_perm (f := id) hx hy fun _ _ _ _ => beq_iff_eq]
  simp

theorem canonizes : Canonizes Comparable equiv canonical := by
  intro a b ha hb
  rw [equiv, canonical, canonical, mk.injEq]
  simp only [Bool.and_eq_true, beq_iff_eq, and_assoc, Directive.canonizes_all ha.1 hb.1,
    canonizes_operationTypes ha.2 hb.2]

end SchemaDefinition

namespace TypeBody

def Comparable : TypeBody → Prop
  | scalar | union _ => True
  | object _ fields | interface _ fields => ∀ field ∈ fields, field.Comparable
  | enum values => ∀ value ∈ values, value.Comparable
  | input fields => ∀ field ∈ fields, field.Comparable

def canonical : TypeBody → TypeBody
  | scalar => scalar
  | object interfaces fields => object interfaces (fields.map FieldDefinition.canonical)
  | interface interfaces fields => interface interfaces (fields.map FieldDefinition.canonical)
  | union members => union members
  | enum values => enum (values.map EnumValueDefinition.canonical)
  | input fields => input (fields.map InputValueDefinition.canonical)

theorem canonizes : Canonizes Comparable equiv canonical := by
  intro a b ha hb
  cases a with
  | scalar => cases b <;> simp [equiv, canonical]
  | object =>
    cases b with
    | object =>
      rw [equiv, canonical, canonical, object.injEq, Bool.and_eq_true, beq_iff_eq,
        FieldDefinition.canonizes.list ha hb]
    | _ => simp [equiv, canonical]
  | interface =>
    cases b with
    | interface =>
      rw [equiv, canonical, canonical, interface.injEq, Bool.and_eq_true, beq_iff_eq,
        FieldDefinition.canonizes.list ha hb]
    | _ => simp [equiv, canonical]
  | union => cases b <;> simp [equiv, canonical]
  | enum =>
    cases b with
    | enum =>
      rw [equiv, canonical, canonical, enum.injEq, EnumValueDefinition.canonizes.list ha hb]
    | _ => simp [equiv, canonical]
  | input =>
    cases b with
    | input =>
      rw [equiv, canonical, canonical, input.injEq, InputValueDefinition.canonizes.list ha hb]
    | _ => simp [equiv, canonical]

end TypeBody

namespace TypeDefinition

def Comparable (d : TypeDefinition) : Prop :=
  (∀ directive ∈ d.directives, directive.Comparable) ∧ d.body.Comparable

def canonical (d : TypeDefinition) : TypeDefinition :=
  { d with
    directives := d.directives.map Directive.canonical
    body := d.body.canonical }

theorem canonizes : Canonizes Comparable equiv canonical := by
  intro a b ha hb
  rw [equiv, canonical, canonical, mk.injEq]
  simp only [Bool.and_eq_true, beq_iff_eq, and_assoc, Directive.canonizes_all ha.1 hb.1,
    TypeBody.canonizes ha.2 hb.2]

end TypeDefinition

namespace DirectiveDefinition

def Comparable (d : DirectiveDefinition) : Prop :=
  ∀ a ∈ d.arguments, a.Comparable

def canonical (d : DirectiveDefinition) : DirectiveDefinition :=
  { d with arguments := d.arguments.map InputValueDefinition.canonical }

theorem canonizes : Canonizes Comparable equiv canonical := by
  intro a b ha hb
  rw [equiv, canonical, canonical, mk.injEq]
  simp only [Bool.and_eq_true, beq_iff_eq, and_assoc, InputValueDefinition.canonizes.list ha hb]

end DirectiveDefinition

/-! ## Documents -/

namespace Definition

def Comparable : Definition → Prop
  | operation d => d.Comparable
  | fragment d => d.Comparable
  | schema d => d.Comparable
  | type d => d.Comparable
  | directive d => d.Comparable

def canonical : Definition → Definition
  | operation d => operation d.canonical
  | fragment d => fragment d.canonical
  | schema d => schema d.canonical
  | type d => type d.canonical
  | directive d => directive d.canonical

theorem canonizes : Canonizes Comparable equiv canonical := by
  intro a b ha hb
  cases a with
  | operation =>
    cases b with
    | operation =>
      rw [equiv, canonical, canonical, operation.injEq, OperationDefinition.canonizes ha hb]
    | _ => simp [equiv, canonical]
  | fragment =>
    cases b with
    | fragment => rw [equiv, canonical, canonical, fragment.injEq, FragmentDefinition.canonizes ha hb]
    | _ => simp [equiv, canonical]
  | schema =>
    cases b with
    | schema => rw [equiv, canonical, canonical, schema.injEq, SchemaDefinition.canonizes ha hb]
    | _ => simp [equiv, canonical]
  | type =>
    cases b with
    | type => rw [equiv, canonical, canonical, type.injEq, TypeDefinition.canonizes ha hb]
    | _ => simp [equiv, canonical]
  | directive =>
    cases b with
    | directive =>
      rw [equiv, canonical, canonical, directive.injEq, DirectiveDefinition.canonizes ha hb]
    | _ => simp [equiv, canonical]

end Definition

namespace Document

/-- No float in the document is NaN, and no key is twice in an object or a schema. -/
def Comparable (d : Document) : Prop :=
  ∀ definition ∈ d.definitions, definition.Comparable

/-- The definitions with the entries of all objects and schemas sorted by their keys, and no sign on
a zero. -/
def canonical (d : Document) : List Definition :=
  d.definitions.map Definition.canonical

theorem canonizes : Canonizes Comparable equiv canonical :=
  fun _ _ ha hb => Definition.canonizes.list ha hb

/-- **Comparable documents are equivalent if their canonical forms are equal**, and only then, so
that equivalence is an equivalence relation on them. The text that a document was read from makes no
difference. -/
theorem equality_canonical {a b c : Document} (ha : a.Comparable) (hb : b.Comparable)
    (hc : c.Comparable) :
    a.equiv a = true ∧ (a.equiv b = true → b.equiv a = true) ∧
    (a.equiv b = true → b.equiv c = true → a.equiv c = true) ∧
    (a.equiv b = true ↔ a.canonical = b.canonical) ∧
    ∀ s t, equiv { a with source := s } { b with source := t } = a.equiv b := by
  refine ⟨(canonizes ha ha).mpr rfl, ?_, ?_, canonizes ha hb, fun _ _ => rfl⟩
  · rw [canonizes ha hb, canonizes hb ha]
    exact Eq.symm
  · rw [canonizes ha hb, canonizes hb hc, canonizes ha hc]
    exact Eq.trans

/-- A query with an object as its argument, and a schema. -/
def ofEntries (entries : List (String × Value .dynamic))
    (operationTypes : List (OperationType × String)) : List Definition :=
  [.operation (.shorthand [.field none "f" [⟨"a", .object entries⟩] [] []]),
    .schema ⟨⟨none, false⟩, [], operationTypes⟩]

theorem comparable_ofEntries {entries : List (String × Value .dynamic)}
    {operationTypes : List (OperationType × String)} {source : Option String}
    (hentries : (Value.object entries).Comparable) (htypes : (operationTypes.map Prod.fst).Nodup) :
    Comparable ⟨ofEntries entries operationTypes, source⟩ := by
  intro definition hdefinition
  simp only [ofEntries, List.mem_cons, List.not_mem_nil, or_false] at hdefinition
  rcases hdefinition with rfl | rfl
  · simpa [Definition.Comparable, OperationDefinition.Comparable, OperationDefinition.shorthand,
      Selection.AllComparable, Selection.Comparable, Argument.Comparable] using hentries
  · exact ⟨by simp, htypes⟩

/-- Two documents that differ in the order of their entries, the sign of a zero and their text. -/
def reordered : Document × Document :=
  (⟨ofEntries [("x", .float ⟨true, 0⟩), ("y", .list [.null])] [(.query, "Q"), (.mutation, "M")],
    none⟩,
  ⟨ofEntries [("y", .list [.null]), ("x", .float ⟨false, 0⟩)] [(.mutation, "M"), (.query, "Q")],
    some ""⟩)

theorem equality_of_reordered :
    reordered.1.canonical = reordered.2.canonical ∧ reordered.2.equiv reordered.1 = true := by
  have ha : reordered.1.Comparable :=
    comparable_ofEntries ⟨by decide, rfl, ⟨trivial, trivial⟩, trivial⟩ (by decide)
  have hb : reordered.2.Comparable :=
    comparable_ofEntries ⟨by decide, ⟨trivial, trivial⟩, rfl, trivial⟩ (by decide)
  have hequiv : reordered.1.equiv reordered.2 = true := by rfl
  obtain ⟨-, hsymm, -, hcanonical, -⟩ := equality_canonical ha hb ha
  exact ⟨hcanonical.mp hequiv, hsymm hequiv⟩

end Document

end GraphQLSyntax
