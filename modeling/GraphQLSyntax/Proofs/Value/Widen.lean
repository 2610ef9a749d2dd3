import GraphQLSyntax.Value.Parser
import GraphQLSyntax.Value.Written

/-!
# Widened values

A constant value is a dynamic one too. As that it has no variables, is written as the same tokens,
and has the same tree, except that lists and objects have the tags of dynamic values.

* `Value.hasVariables_widen`, `Value.tokens_widen`, `Value.sexp_widen`: these three.
* `Value.widen_list`, `Value.widen_ofPairs`, `Value.widen_ofName`: widening what is read.
-/

namespace GraphQLSyntax

/-! ## Trees -/

namespace Sexp

mutual

/-- The tree of a value with the tags of dynamic lists and objects for those of constant ones. -/
def asDynamic : Sexp → Sexp
  | list [atom tag, list parts] =>
    if tag = ValueMode.const.listTag then
      node ValueMode.dynamic.listTag [list (asDynamicItems parts)]
    else if tag = ValueMode.const.objectTag then
      node ValueMode.dynamic.objectTag [list (asDynamicEntries parts)]
    else node tag [list parts]
  | s => s

def asDynamicItems : List Sexp → List Sexp
  | [] => []
  | item :: items => item.asDynamic :: asDynamicItems items

/-- An entry is a list too, but its key is no tag. -/
def asDynamicEntries : List Sexp → List Sexp
  | [] => []
  | list [key, value] :: entries => list [key, value.asDynamic] :: asDynamicEntries entries
  | entry :: entries => entry :: asDynamicEntries entries

end

end Sexp

namespace Value

/-! ## What is read -/

theorem widen_list (items : List (Value .const)) : (list items).widen = list (items.map widen) := by
  rw [widen, widenItems_eq]

theorem widen_ofPairs (pairs : List (String × Value .const)) :
    (ofPairs pairs).widen = ofPairs (pairs.map fun pair => (pair.1, pair.2.widen)) := by
  rw [ofPairs, ofPairs, widen, widenEntries_eq, Entries.ofPairs_map]

theorem widen_ofName (name : String) : widen (ofName name) = ofName name := by
  unfold ofName
  split
  · rfl
  split
  · rfl
  split <;> rfl

/-! ## Variables, tokens and trees -/

mutual

/-- A widened value refers to what the value refers to. -/
theorem hasVariables_widen_eq : ∀ value : Value .const,
    value.widen.hasVariables = value.hasVariables
  | boolean _ | int _ | float _ | string _ | enum _ | null => rfl
  | list items => by rw [widen, hasVariables, hasVariables, anyHasVariables_widen items]
  | object entries => by rw [widen, hasVariables, hasVariables, anyEntryHasVariables_widen entries]

theorem anyHasVariables_widen : ∀ items : List (Value .const),
    anyHasVariables (widenItems items) = anyHasVariables items
  | [] => rfl
  | value :: items => by
    rw [widenItems, anyHasVariables, anyHasVariables, hasVariables_widen_eq value,
      anyHasVariables_widen items]

theorem anyEntryHasVariables_widen : ∀ entries : List (String × Value .const),
    anyEntryHasVariables (widenEntries entries) = anyEntryHasVariables entries
  | [] => rfl
  | (_, value) :: entries => by
    rw [widenEntries, anyEntryHasVariables, anyEntryHasVariables, hasVariables_widen_eq value,
      anyEntryHasVariables_widen entries]

end

/-- A widened value refers to no variable. -/
theorem hasVariables_widen (value : Value .const) : value.widen.hasVariables = false :=
  (hasVariables_widen_eq value).trans (hasVariables_const value)

mutual

/-- A widened value is written as the same tokens. -/
theorem tokens_widen : ∀ value : Value .const, value.widen.tokens = value.tokens
  | boolean true | boolean false | int _ | float _ | string _ | enum _ | null => rfl
  | list items => by rw [widen, tokens, tokens, itemTokens_widen items]
  | object entries => by rw [widen, tokens, tokens, entryTokens_widen entries]

theorem itemTokens_widen : ∀ items : List (Value .const),
    itemTokens (widenItems items) = itemTokens items
  | [] => rfl
  | value :: items => by
    rw [widenItems, itemTokens, itemTokens, tokens_widen value, itemTokens_widen items]

theorem entryTokens_widen : ∀ entries : List (String × Value .const),
    entryTokens (widenEntries entries) = entryTokens entries
  | [] => rfl
  | (_, value) :: entries => by
    rw [widenEntries, entryTokens, entryTokens, tokens_widen value, entryTokens_widen entries]

end

mutual

/-- The tree of a widened value has other tags for lists and objects. -/
theorem sexp_widen : ∀ value : Value .const, value.widen.sexp = value.sexp.asDynamic
  | boolean _ | int _ | float _ | string _ | enum _ | null => rfl
  | list items => by
    rw [widen, sexp, sexp_widenItems items]
    rfl
  | object entries => by
    rw [widen, sexp, sexp_widenEntries entries]
    rfl

theorem sexp_widenItems : ∀ items : List (Value .const),
    itemSexps (widenItems items) = Sexp.asDynamicItems (itemSexps items)
  | [] => rfl
  | value :: items => by
    rw [widenItems, itemSexps, itemSexps, Sexp.asDynamicItems, sexp_widen value,
      sexp_widenItems items]

theorem sexp_widenEntries : ∀ entries : List (String × Value .const),
    entrySexps (widenEntries entries) = Sexp.asDynamicEntries (entrySexps entries)
  | [] => rfl
  | (key, value) :: entries => by
    rw [widenEntries, entrySexps, entrySexps, Sexp.asDynamicEntries, sexp_widen value,
      sexp_widenEntries entries]

end

end Value

end GraphQLSyntax
