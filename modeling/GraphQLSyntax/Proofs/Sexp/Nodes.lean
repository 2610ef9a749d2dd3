import GraphQLSyntax.Proofs.Sexp.Reading
import GraphQLSyntax.Proofs.WellFormed.Legible

/-!
# The nodes of a tree

Each node tells its fields apart, except where a name can be absent: the marker of what is absent is
`nil`, which is a name too. So a tree tells what it was made of but for aliases and names of
operations that are `nil`.

* `Value.bare_sexp_inj` and its likes: the tree of a node determines the node.
* `Value.legible_sexp` and its likes: the tree of a legible node can be read.
-/

namespace GraphQLSyntax

variable {m : ValueMode}

namespace Sexp

/-! ## Lists and nodes -/

theorem bare_list (items : List Sexp) : (list items).bare = list (items.map bare) := by
  rw [bare, bareAll_eq]

@[simp] theorem bare_node (tag : String) (fields : List Sexp) :
    (node tag fields).bare = node tag (fields.map bare) := by
  rw [node, bare_list]
  rfl

@[simp] theorem bare_atom (text : String) : (atom text).bare = atom text := rfl

@[simp] theorem bare_absent : absent.bare = atom "nil" := rfl

theorem bare_boolean (value : Bool) :
    (boolean value).bare = atom (if value then "true" else "false") := rfl

@[simp] theorem bare_string (value : String) : (string value).bare = string value := rfl

@[simp] theorem bare_int (value : Int64) : (int value).bare = int value := rfl

@[simp] theorem bare_float (value : Double) : (float value).bare = float value := rfl

@[simp] theorem bare_varRef (name : String) : (varRef name).bare = varRef name := rfl

@[simp] theorem bare_atoms (names : List String) : (atoms names).bare = atoms names := by
  rw [atoms, bare_list, List.map_map]
  rfl

@[simp] theorem node_inj {s t : String} {xs ys : List Sexp} :
    node s xs = node t ys ↔ s = t ∧ xs = ys := by
  simp [node]

@[simp] theorem atoms_inj {xs ys : List String} : atoms xs = atoms ys ↔ xs = ys := by
  rw [atoms, atoms, list.injEq, List.map_inj_right fun _ _ h => atom.inj h]

/-- A node can be read if its tag and its fields can. -/
theorem legible_bare_node {tag : String} {fields : List Sexp} (htag : isWord tag = true)
    (hfields : AllLegible (fields.map bare)) : (node tag fields).bare.Legible := by
  rw [bare_node]
  exact ⟨htag, hfields⟩

theorem legible_bare_list_map {α : Type} {tree : α → Sexp} {xs : List α}
    (h : ∀ x ∈ xs, (tree x).bare.Legible) : (list (xs.map tree)).bare.Legible := by
  rw [bare_list, Legible, allLegible_iff, List.forall_mem_map, List.forall_mem_map]
  exact h

/-- A list of trees tells as much of what it was made of as its items do. -/
theorem bare_list_map_inj {α β : Type} (tree : α → Sexp) (part : α → β)
    (h : ∀ x y, (tree x).bare = (tree y).bare ↔ part x = part y) {xs ys : List α} :
    (list (xs.map tree)).bare = (list (ys.map tree)).bare ↔ xs.map part = ys.map part := by
  simp only [bare_list, list.injEq]
  induction xs generalizing ys with
  | nil => cases ys <;> simp
  | cons x xs ih =>
    cases ys with
    | nil => simp
    | cons y ys => simp only [List.map_cons, List.cons.injEq, h, ih]

/-- A list of trees that determine what they were made of does so too. -/
theorem bare_list_map_inj_self {α : Type} (tree : α → Sexp)
    (h : ∀ x y, (tree x).bare = (tree y).bare ↔ x = y) {xs ys : List α} :
    (list (xs.map tree)).bare = (list (ys.map tree)).bare ↔ xs = ys := by
  rw [bare_list_map_inj tree id h, List.map_id, List.map_id]

/-! ## Leaves -/

/-- A name that can be absent, without the name that says so. -/
def dropNil (name : Option String) : Option String :=
  name.filter (· ≠ "nil")

theorem bare_atomOrAbsent (name : Option String) :
    (atomOrAbsent name).bare = atom (name.getD "nil") := by
  cases name <;> rfl

@[simp] theorem bare_atomOrAbsent_inj {a b : Option String} :
    (atomOrAbsent a).bare = (atomOrAbsent b).bare ↔ dropNil a = dropNil b := by
  rw [bare_atomOrAbsent, bare_atomOrAbsent, atom.injEq]
  rcases a with _ | a <;> rcases b with _ | b <;> grind [dropNil]

@[simp] theorem bare_stringOrAbsent_inj {a b : Option String} :
    (stringOrAbsent a).bare = (stringOrAbsent b).bare ↔ a = b := by
  rcases a with _ | a <;> rcases b with _ | b <;> simp [stringOrAbsent]

@[simp] theorem bare_boolean_inj {a b : Bool} : (boolean a).bare = (boolean b).bare ↔ a = b := by
  cases a <;> cases b <;> simp [bare_boolean]

private theorem toList_toUpper (text : String) :
    text.toUpper.toList = text.toList.map Char.toUpper := by
  simp [String.toUpper]

@[simp] theorem bare_operationType_inj {s t : OperationType} :
    (operationType s).bare = (operationType t).bare ↔ s = t := by
  rw [operationType, operationType, bare_atom, bare_atom, atom.injEq, ← String.toList_inj,
    toList_toUpper, toList_toUpper]
  cases s <;> cases t <;> decide

theorem legible_bare_atom {name : String} (h : isName name = true) :
    (atom name).bare.Legible := by
  rw [bare_atom, Legible]
  exact isWord_of_isName h

theorem legible_bare_atoms {names : List String} (h : ∀ name ∈ names, isName name = true) :
    (atoms names).bare.Legible :=
  legible_bare_list_map fun name hname => legible_bare_atom (h name hname)

theorem legible_bare_absent : absent.bare.Legible := by
  rw [bare_absent, Legible]
  decide

theorem legible_bare_boolean (value : Bool) : (boolean value).bare.Legible := by
  rw [bare_boolean, Legible]
  cases value <;> decide

theorem legible_bare_atomOrAbsent {name : Option String} (h : NameOrAbsent name) :
    (atomOrAbsent name).bare.Legible := by
  cases name with
  | none => exact legible_bare_absent
  | some text => exact legible_bare_atom (h text rfl)

theorem legible_bare_stringOrAbsent (value : Option String) :
    (stringOrAbsent value).bare.Legible := by
  cases value with
  | none => exact legible_bare_absent
  | some text => trivial

theorem legible_bare_operationType (t : OperationType) : (operationType t).bare.Legible := by
  rw [operationType, bare_atom, Legible, isWord, toList_toUpper]
  cases t <;> decide

end Sexp

/-! ## Types and values -/

@[simp] theorem TypeRef.bare_sexp_inj {s t : TypeRef} : s.sexp.bare = t.sexp.bare ↔ s = t := by
  induction s generalizing t with
  | named name => cases t <;> simp [sexp, Sexp.node, Sexp.bare_list]
  | list inner ih | nonNull inner ih => cases t <;> simp [sexp, ih, Sexp.node, Sexp.bare_list]

namespace Value

/-- No value is read where there is none. -/
theorem bare_sexp_ne_absent (x : Value m) : x.sexp.bare ≠ Sexp.absent.bare := by
  cases x with
  | boolean value => cases value <;> simp [sexp, Sexp.bare_boolean]
  | _ => simp [sexp, Sexp.node, Sexp.bare_list]

mutual

/-- The tree of a value tells what the value is. Leaves of two sorts of values differ, and nodes of
two sorts have different tags. -/
theorem bare_sexp_inj : ∀ {x y : Value m}, x.sexp.bare = y.sexp.bare ↔ x = y
  | varRef _ _, y | int _, y | float _, y | string _, y => by
    cases y <;> simp [sexp, Sexp.node, Sexp.bare_list, Sexp.bare_boolean]
  | boolean b, y => by
    cases y with
    | boolean => simp [sexp]
    | null => cases b <;> simp [sexp, Sexp.bare_boolean]
    | _ => simp [sexp, Sexp.node, Sexp.bare_list, Sexp.bare_boolean]
  | null, y => by
    cases y with
    | boolean b => cases b <;> simp [sexp, Sexp.bare_boolean]
    | _ => simp [sexp, Sexp.node, Sexp.bare_list]
  | enum _, y => by
    cases m <;> cases y <;>
      simp [sexp, Sexp.node, Sexp.bare_list, Sexp.bare_boolean, ValueMode.listTag,
        ValueMode.objectTag]
  | list items, y => by
    cases y with
    | list others => simp [sexp, Sexp.bare_list, bare_itemSexps_inj items]
    | _ =>
      cases m <;> simp [sexp, Sexp.node, Sexp.bare_list, Sexp.bare_boolean, ValueMode.listTag,
        ValueMode.objectTag]
  | object entries, y => by
    cases y with
    | object others => simp [sexp, Sexp.bare_list, bare_entrySexps_inj entries]
    | _ =>
      cases m <;> simp [sexp, Sexp.node, Sexp.bare_list, Sexp.bare_boolean, ValueMode.listTag,
        ValueMode.objectTag]

theorem bare_itemSexps_inj : ∀ xs ys : List (Value m),
    (itemSexps xs).map Sexp.bare = (itemSexps ys).map Sexp.bare ↔ xs = ys
  | [], ys => by cases ys <;> simp [itemSexps]
  | x :: xs, ys => by
    cases ys with
    | nil => simp [itemSexps]
    | cons y ys => simp [itemSexps, bare_sexp_inj (x := x), bare_itemSexps_inj xs ys]

theorem bare_entrySexps_inj : ∀ xs ys : List (String × Value m),
    (entrySexps xs).map Sexp.bare = (entrySexps ys).map Sexp.bare ↔ xs = ys
  | [], ys => by cases ys <;> simp [entrySexps]
  | (key, x) :: xs, ys => by
    cases ys with
    | nil => simp [entrySexps]
    | cons y ys =>
      obtain ⟨other, y⟩ := y
      simp [entrySexps, Sexp.bare_list, bare_sexp_inj (x := x), bare_entrySexps_inj xs ys]

end

mutual

theorem legible_sexp : ∀ {x : Value m}, x.Legible → x.sexp.bare.Legible
  | varRef name _, h => by
    rw [Legible] at h
    exact Sexp.isWord_of_isName h
  | boolean value, _ => Sexp.legible_bare_boolean value
  | int _, _ | string _, _ => trivial
  | float _, h => by rwa [Legible] at h
  | enum _, h => by
    rw [Legible] at h
    exact Sexp.legible_bare_node (by decide) ⟨Sexp.legible_bare_atom h, trivial⟩
  | null, _ => by
    rw [sexp, Sexp.bare_atom, Sexp.Legible]
    decide
  | list items, h => by
    rw [Legible] at h
    exact Sexp.legible_bare_node (by cases m <;> decide) ⟨legible_itemSexps h, trivial⟩
  | object entries, h => by
    rw [Legible] at h
    exact Sexp.legible_bare_node (by cases m <;> decide) ⟨legible_entrySexps h, trivial⟩

theorem legible_itemSexps : ∀ {items : List (Value m)}, ItemsLegible items →
    (Sexp.list (itemSexps items)).bare.Legible
  | [], _ => trivial
  | _ :: _, h => by
    rw [ItemsLegible] at h
    exact ⟨legible_sexp h.1, legible_itemSexps h.2⟩

theorem legible_entrySexps : ∀ {entries : List (String × Value m)}, EntriesLegible entries →
    (Sexp.list (entrySexps entries)).bare.Legible
  | [], _ => trivial
  | (_, _) :: _, h => by
    rw [EntriesLegible] at h
    exact ⟨⟨Sexp.legible_bare_atom h.1, legible_sexp h.2.1, trivial⟩, legible_entrySexps h.2.2⟩

end

@[simp] theorem bare_defaultSexp_inj {a b : Option (Value m)} :
    (defaultSexp a).bare = (defaultSexp b).bare ↔ a = b := by
  rcases a with _ | x <;> rcases b with _ | y
  · simp
  · simpa [defaultSexp] using (bare_sexp_ne_absent y).symm
  · simpa [defaultSexp] using bare_sexp_ne_absent x
  · simp [defaultSexp, bare_sexp_inj]

theorem legible_defaultSexp {default : Option (Value m)} (h : DefaultLegible default) :
    (defaultSexp default).bare.Legible := by
  cases default with
  | none => exact Sexp.legible_bare_absent
  | some value => exact legible_sexp (h value rfl)

end Value

theorem TypeRef.legible_sexp {type : TypeRef} (h : type.Legible) : type.sexp.bare.Legible := by
  induction type with
  | named name => exact Sexp.legible_bare_atom h
  | list inner ih | nonNull inner ih =>
    exact Sexp.legible_bare_node (by decide) ⟨ih h, trivial⟩

/-! ## Arguments and directives -/

@[simp] theorem Argument.bare_sexp_inj {a b : Argument m} : a.sexp.bare = b.sexp.bare ↔ a = b := by
  cases a
  cases b
  simp [sexp, Value.bare_sexp_inj]

theorem Argument.legible_sexp {a : Argument m} (h : a.Legible) : a.sexp.bare.Legible :=
  Sexp.legible_bare_node (by decide) ⟨Sexp.legible_bare_atom h.1, Value.legible_sexp h.2, trivial⟩

@[simp] theorem Argument.bare_list_inj {as bs : List (Argument m)} :
    (Sexp.list (as.map sexp)).bare = (Sexp.list (bs.map sexp)).bare ↔ as = bs :=
  Sexp.bare_list_map_inj_self sexp fun _ _ => bare_sexp_inj

namespace Directive

@[simp] theorem bare_sexp_inj {d e : Directive m} : d.sexp.bare = e.sexp.bare ↔ d = e := by
  cases d
  cases e
  simp [sexp]

theorem legible_sexp {d : Directive m} (h : d.Legible) : d.sexp.bare.Legible :=
  Sexp.legible_bare_node (by decide) ⟨Sexp.legible_bare_atom h.1,
    Sexp.legible_bare_list_map fun a ha => Argument.legible_sexp (h.2 a ha), trivial⟩

@[simp] theorem bare_allSexp_inj {ds es : List (Directive m)} :
    (allSexp ds).bare = (allSexp es).bare ↔ ds = es :=
  Sexp.bare_list_map_inj_self sexp fun _ _ => bare_sexp_inj

theorem legible_allSexp {directives : List (Directive m)} (h : ∀ d ∈ directives, d.Legible) :
    (allSexp directives).bare.Legible :=
  Sexp.legible_bare_list_map fun d hd => legible_sexp (h d hd)

end Directive

/-! ## Selections -/

namespace Selection

mutual

/-- The selection without the aliases that are `nil`. -/
def withoutNil : Selection → Selection
  | field aliasName name arguments directives selections =>
    field (Sexp.dropNil aliasName) name arguments directives (allWithoutNil selections)
  | spread name directives => spread name directives
  | inline condition directives selections =>
    inline condition directives (allWithoutNil selections)

def allWithoutNil : List Selection → List Selection
  | [] => []
  | s :: selections => s.withoutNil :: allWithoutNil selections

end

mutual

/-- The tree of a selection tells what the selection is, but for aliases that are `nil`. -/
theorem bare_sexp_inj : ∀ {s t : Selection}, s.sexp.bare = t.sexp.bare ↔ s.withoutNil = t.withoutNil
  | field _ _ _ _ ss, t => by
    cases t with
    | field => simp [sexp, withoutNil, bare_sexps_inj ss]
    | _ => simp [sexp, withoutNil]
  | spread _ _, t => by cases t <;> simp [sexp, withoutNil]
  | inline _ _ ss, t => by
    cases t with
    | inline => simp [sexp, withoutNil, bare_sexps_inj ss]
    | _ => simp [sexp, withoutNil]

theorem bare_sexps_inj : ∀ ss ts : List Selection,
    (Sexp.list (sexps ss)).bare = (Sexp.list (sexps ts)).bare ↔
      allWithoutNil ss = allWithoutNil ts
  | [], ts => by cases ts <;> simp [sexps, allWithoutNil, Sexp.bare_list]
  | s :: ss, ts => by
    cases ts with
    | nil => simp [sexps, allWithoutNil, Sexp.bare_list]
    | cons t ts =>
      have hrest := bare_sexps_inj ss ts
      simp only [Sexp.bare_list, Sexp.list.injEq] at hrest
      simp [sexps, allWithoutNil, Sexp.bare_list, bare_sexp_inj (s := s), hrest]

end

mutual

theorem legible_sexp : ∀ {s : Selection}, s.Legible → s.sexp.bare.Legible
  | field _ _ _ _ _, h => by
    rw [Legible] at h
    obtain ⟨halias, hname, harguments, hdirectives, hselections⟩ := h
    exact Sexp.legible_bare_node (by decide) ⟨Sexp.legible_bare_atomOrAbsent halias,
      Sexp.legible_bare_atom hname,
      Sexp.legible_bare_list_map fun a ha => Argument.legible_sexp (harguments a ha),
      Directive.legible_allSexp hdirectives, legible_sexps hselections, trivial⟩
  | spread _ _, h => by
    rw [Legible] at h
    exact Sexp.legible_bare_node (by decide)
      ⟨Sexp.legible_bare_atom h.1, Directive.legible_allSexp h.2, trivial⟩
  | inline _ _ _, h => by
    rw [Legible] at h
    exact Sexp.legible_bare_node (by decide) ⟨Sexp.legible_bare_atom h.1,
      Directive.legible_allSexp h.2.1, legible_sexps h.2.2, trivial⟩

theorem legible_sexps : ∀ {selections : List Selection}, AllLegible selections →
    (Sexp.list (sexps selections)).bare.Legible
  | [], _ => trivial
  | _ :: _, h => by
    rw [AllLegible] at h
    exact ⟨legible_sexp h.1, legible_sexps h.2⟩

end

end Selection

/-! ## Operations and fragments -/

namespace VariableDefinition

@[simp] theorem bare_sexp_inj {c d : VariableDefinition} : c.sexp.bare = d.sexp.bare ↔ c = d := by
  cases c
  cases d
  simp [sexp]

theorem legible_sexp {d : VariableDefinition} (h : d.Legible) : d.sexp.bare.Legible :=
  Sexp.legible_bare_node (by decide) ⟨Sexp.legible_bare_atom h.1, TypeRef.legible_sexp h.2.1,
    Value.legible_defaultSexp h.2.2.1, Directive.legible_allSexp h.2.2.2, trivial⟩

@[simp] theorem bare_list_inj {cs ds : List VariableDefinition} :
    (Sexp.list (cs.map sexp)).bare = (Sexp.list (ds.map sexp)).bare ↔ cs = ds :=
  Sexp.bare_list_map_inj_self sexp fun _ _ => bare_sexp_inj

end VariableDefinition

namespace OperationDefinition

/-- The operation without the names of its own and of its fields that are `nil`. -/
def withoutNil (d : OperationDefinition) : OperationDefinition :=
  { d with name := Sexp.dropNil d.name, selections := Selection.allWithoutNil d.selections }

theorem bare_sexp_inj {c d : OperationDefinition} :
    c.sexp.bare = d.sexp.bare ↔ c.withoutNil = d.withoutNil := by
  cases c
  cases d
  simp [sexp, withoutNil, Selection.bare_sexps_inj, and_left_comm]

theorem legible_sexp {d : OperationDefinition} (h : d.Legible) : d.sexp.bare.Legible :=
  Sexp.legible_bare_node (by decide) ⟨Sexp.legible_bare_atomOrAbsent h.1,
    Sexp.legible_bare_list_map fun v hv => VariableDefinition.legible_sexp (h.2.1 v hv),
    Directive.legible_allSexp h.2.2.1, Sexp.legible_bare_operationType d.operation,
    Selection.legible_sexps (Selection.allLegible_iff.mpr h.2.2.2), trivial⟩

end OperationDefinition

namespace FragmentDefinition

/-- The fragment without the aliases that are `nil`. -/
def withoutNil (d : FragmentDefinition) : FragmentDefinition :=
  { d with selections := Selection.allWithoutNil d.selections }

theorem bare_sexp_inj {c d : FragmentDefinition} :
    c.sexp.bare = d.sexp.bare ↔ c.withoutNil = d.withoutNil := by
  cases c
  cases d
  simp [sexp, withoutNil, Selection.bare_sexps_inj]

theorem legible_sexp {d : FragmentDefinition} (h : d.Legible) : d.sexp.bare.Legible :=
  Sexp.legible_bare_node (by decide) ⟨Sexp.legible_bare_atom h.1, Sexp.legible_bare_atom h.2.1,
    Directive.legible_allSexp h.2.2.1,
    Selection.legible_sexps (Selection.allLegible_iff.mpr h.2.2.2), trivial⟩

end FragmentDefinition

/-! ## The type system -/

namespace InputValueDefinition

@[simp] theorem bare_sexp_inj {c d : InputValueDefinition} :
    c.sexp.bare = d.sexp.bare ↔ c = d := by
  cases c
  cases d
  simp [sexp]

theorem legible_sexp {d : InputValueDefinition} (h : d.Legible) : d.sexp.bare.Legible :=
  Sexp.legible_bare_node (by decide) ⟨Sexp.legible_bare_stringOrAbsent d.description,
    Sexp.legible_bare_atom h.1, TypeRef.legible_sexp h.2.1, Value.legible_defaultSexp h.2.2.1,
    Directive.legible_allSexp h.2.2.2, trivial⟩

@[simp] theorem bare_list_inj {cs ds : List InputValueDefinition} :
    (Sexp.list (cs.map sexp)).bare = (Sexp.list (ds.map sexp)).bare ↔ cs = ds :=
  Sexp.bare_list_map_inj_self sexp fun _ _ => bare_sexp_inj

end InputValueDefinition

namespace FieldDefinition

@[simp] theorem bare_sexp_inj {c d : FieldDefinition} : c.sexp.bare = d.sexp.bare ↔ c = d := by
  cases c
  cases d
  simp [sexp]

theorem legible_sexp {d : FieldDefinition} (h : d.Legible) : d.sexp.bare.Legible :=
  Sexp.legible_bare_node (by decide) ⟨Sexp.legible_bare_stringOrAbsent d.description,
    Sexp.legible_bare_atom h.1,
    Sexp.legible_bare_list_map fun a ha => InputValueDefinition.legible_sexp (h.2.1 a ha),
    TypeRef.legible_sexp h.2.2.1, Directive.legible_allSexp h.2.2.2, trivial⟩

@[simp] theorem bare_list_inj {cs ds : List FieldDefinition} :
    (Sexp.list (cs.map sexp)).bare = (Sexp.list (ds.map sexp)).bare ↔ cs = ds :=
  Sexp.bare_list_map_inj_self sexp fun _ _ => bare_sexp_inj

end FieldDefinition

namespace EnumValueDefinition

@[simp] theorem bare_sexp_inj {c d : EnumValueDefinition} : c.sexp.bare = d.sexp.bare ↔ c = d := by
  cases c
  cases d
  simp [sexp]

theorem legible_sexp {d : EnumValueDefinition} (h : d.Legible) : d.sexp.bare.Legible :=
  Sexp.legible_bare_node (by decide) ⟨Sexp.legible_bare_stringOrAbsent d.description,
    Sexp.legible_bare_atom h.1, Directive.legible_allSexp h.2, trivial⟩

@[simp] theorem bare_list_inj {cs ds : List EnumValueDefinition} :
    (Sexp.list (cs.map sexp)).bare = (Sexp.list (ds.map sexp)).bare ↔ cs = ds :=
  Sexp.bare_list_map_inj_self sexp fun _ _ => bare_sexp_inj

end EnumValueDefinition

namespace SchemaDefinition

private theorem bare_entry_inj (x y : OperationType × String) :
    (Sexp.list [.operationType x.1, .atom x.2]).bare =
      (Sexp.list [.operationType y.1, .atom y.2]).bare ↔ x = y := by
  simp [Sexp.bare_list, Prod.ext_iff]

theorem bare_sexp_inj {c d : SchemaDefinition} : c.sexp.bare = d.sexp.bare ↔ c = d := by
  obtain ⟨⟨_, _⟩, _, _⟩ := c
  obtain ⟨⟨_, _⟩, _, _⟩ := d
  simp [sexp, Heading.sexps, Sexp.bare_list_map_inj_self _ bare_entry_inj, and_assoc]

theorem legible_sexp {d : SchemaDefinition} (h : d.Legible) : d.sexp.bare.Legible :=
  Sexp.legible_bare_node (by decide) ⟨Sexp.legible_bare_stringOrAbsent d.description,
    Sexp.legible_bare_boolean d.isExtension, Directive.legible_allSexp h.1,
    Sexp.legible_bare_list_map fun entry hentry =>
      ⟨Sexp.legible_bare_operationType entry.1, Sexp.legible_bare_atom (h.2 entry hentry), trivial⟩,
    trivial⟩

end SchemaDefinition

namespace TypeBody

theorem legible_sexps {body : TypeBody} (h : body.Legible) {directives : Sexp}
    (hdirectives : directives.bare.Legible) :
    Sexp.AllLegible ((body.sexps directives).map Sexp.bare) := by
  cases body with
  | scalar => exact ⟨hdirectives, trivial⟩
  | object _ fields | interface _ fields =>
    exact ⟨Sexp.legible_bare_atoms h.1, hdirectives,
      Sexp.legible_bare_list_map fun field hfield =>
        FieldDefinition.legible_sexp (h.2 field hfield), trivial⟩
  | union members => exact ⟨hdirectives, Sexp.legible_bare_atoms h, trivial⟩
  | enum values =>
    exact ⟨hdirectives, Sexp.legible_bare_list_map fun value hvalue =>
      EnumValueDefinition.legible_sexp (h value hvalue), trivial⟩
  | input fields =>
    exact ⟨hdirectives, Sexp.legible_bare_list_map fun field hfield =>
      InputValueDefinition.legible_sexp (h field hfield), trivial⟩

end TypeBody

namespace TypeDefinition

private theorem keyword_inj {j k : TypeKind} : j.keyword = k.keyword ↔ j = k := by
  cases j <;> cases k <;> decide

theorem bare_sexp_inj {c d : TypeDefinition} : c.sexp.bare = d.sexp.bare ↔ c = d := by
  obtain ⟨⟨_, _⟩, _, _, body⟩ := c
  obtain ⟨⟨_, _⟩, _, _, other⟩ := d
  -- Bodies of two kinds differ in the tags, those of one kind in the fields of the node.
  cases body <;> cases other <;>
    simp [sexp, Heading.sexps, TypeBody.sexps, TypeBody.kind, keyword_inj, and_assoc,
      and_left_comm]

theorem legible_sexp {d : TypeDefinition} (h : d.Legible) : d.sexp.bare.Legible := by
  have htag : Sexp.isWord d.body.kind.keyword = true := by
    cases d.body.kind <;> decide
  exact Sexp.legible_bare_node htag ⟨Sexp.legible_bare_stringOrAbsent d.description,
    Sexp.legible_bare_boolean d.isExtension, Sexp.legible_bare_atom h.1,
    TypeBody.legible_sexps h.2.2 (Directive.legible_allSexp h.2.1)⟩

end TypeDefinition

namespace DirectiveDefinition

private theorem locationNames_inj {xs ys : List DirectiveLocation} :
    xs.map DirectiveLocation.name = ys.map DirectiveLocation.name ↔ xs = ys := by
  refine List.map_inj_right fun x y h => Option.some.inj ?_
  rw [← DirectiveLocation.ofName?_name x, h, DirectiveLocation.ofName?_name]

theorem bare_sexp_inj {c d : DirectiveDefinition} : c.sexp.bare = d.sexp.bare ↔ c = d := by
  cases c
  cases d
  simp [sexp, locationNames_inj]

theorem legible_sexp {d : DirectiveDefinition} (h : d.Legible) : d.sexp.bare.Legible := by
  have hlocations : ∀ name ∈ d.locations.map DirectiveLocation.name, isName name = true := by
    rw [List.forall_mem_map]
    intro location _
    cases location <;> decide
  exact Sexp.legible_bare_node (by decide) ⟨Sexp.legible_bare_stringOrAbsent d.description,
    Sexp.legible_bare_atom h.1,
    Sexp.legible_bare_list_map fun a ha => InputValueDefinition.legible_sexp (h.2 a ha),
    Sexp.legible_bare_boolean d.repeatable, Sexp.legible_bare_atoms hlocations, trivial⟩

end DirectiveDefinition

/-! ## Documents -/

namespace Definition

/-- The definition without the aliases and names of operations that are `nil`. -/
def withoutNil : Definition → Definition
  | operation d => operation d.withoutNil
  | fragment d => fragment d.withoutNil
  | schema d => schema d
  | type d => type d
  | directive d => directive d

/-- No type has the tag of another sort of definition. -/
private theorem tag_ne_keyword (k : TypeKind) {tag : String}
    (h : tag ∈ ["op", "frag", "schema", "directive-def"]) : tag ≠ k.keyword := by
  revert tag
  cases k <;> decide

/-- The tree of a definition tells what the definition is, but for names that are `nil`. -/
theorem bare_sexp_inj (c d : Definition) :
    c.sexp.bare = d.sexp.bare ↔ c.withoutNil = d.withoutNil := by
  cases c <;> cases d
  case operation.operation => simp [sexp, withoutNil, OperationDefinition.bare_sexp_inj]
  case fragment.fragment => simp [sexp, withoutNil, FragmentDefinition.bare_sexp_inj]
  case schema.schema => simp [sexp, withoutNil, SchemaDefinition.bare_sexp_inj]
  case type.type => simp [sexp, withoutNil, TypeDefinition.bare_sexp_inj]
  case directive.directive => simp [sexp, withoutNil, DirectiveDefinition.bare_sexp_inj]
  -- Definitions of two sorts have different tags.
  all_goals
    simp [sexp, withoutNil, OperationDefinition.sexp, FragmentDefinition.sexp,
      SchemaDefinition.sexp, TypeDefinition.sexp, DirectiveDefinition.sexp, tag_ne_keyword,
      (tag_ne_keyword _ _).symm]

theorem legible_sexp {d : Definition} (h : d.Legible) : d.sexp.bare.Legible := by
  cases d with
  | operation d => exact OperationDefinition.legible_sexp h
  | fragment d => exact FragmentDefinition.legible_sexp h
  | schema d => exact SchemaDefinition.legible_sexp h
  | type d => exact TypeDefinition.legible_sexp h
  | directive d => exact DirectiveDefinition.legible_sexp h

end Definition

end GraphQLSyntax
