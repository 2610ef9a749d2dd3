import GraphQLSyntax.Proofs.Document.RoundTrip
import GraphQLSyntax.Proofs.Sexp.Nodes

/-!
# What a dump tells

The dump of a document is the text of its tree. It can be read in one way only, and the tree tells
what the document is, but for names: a field with the alias `nil` has the dump of a field without an
alias, and a query named `nil` that of one without a name. Nothing else is lost.

* `Document.dump_eq_iff`: legible documents have one dump exactly if they are the same without these
  names.
* `Document.definitions_eq_of_dump_eq`: documents that were read and do not use the name are known
  from their dumps.
* `Document.dump_of_alias_nil`: documents that use it are not.
-/

namespace GraphQLSyntax

namespace Document

/-- The document without the aliases and names of operations that are `nil`. -/
def withoutNil (d : Document) : Document :=
  { d with definitions := d.definitions.map Definition.withoutNil }

theorem legible_sexp {d : Document} (h : d.Legible) : d.sexp.bare.Legible :=
  Sexp.legible_bare_node (by decide) ⟨Sexp.legible_bare_list_map fun definition hdefinition =>
    Definition.legible_sexp (h definition hdefinition), trivial⟩

/-- The tree of a document tells its definitions, but for names that are `nil`. -/
theorem bare_sexp_inj {c d : Document} :
    c.sexp.bare = d.sexp.bare ↔ c.withoutNil.definitions = d.withoutNil.definitions := by
  simp [sexp, withoutNil, Sexp.bare_list_map_inj _ _ Definition.bare_sexp_inj]

/-- Names that are `nil` do not show in a dump. -/
theorem dump_eq_of_withoutNil_eq {c d : Document}
    (h : c.withoutNil.definitions = d.withoutNil.definitions) : c.dump = d.dump := by
  rw [dump, dump, ← Sexp.text_bare c.sexp, bare_sexp_inj.mpr h, Sexp.text_bare]

/-- Nothing else is lost of what is legible. -/
theorem withoutNil_eq_of_dump_eq {c d : Document} (hc : c.Legible) (hd : d.Legible)
    (h : c.dump = d.dump) : c.withoutNil.definitions = d.withoutNil.definitions :=
  bare_sexp_inj.mp
    ((Sexp.text_eq_iff (legible_sexp hc) (legible_sexp hd)).mp (String.ofList_inj.mp h))

/-- **A dump tells all but `nil`.** Two documents whose names are names and whose floats are numbers
have the same dump exactly if their definitions are the same without the aliases and the names of
operations that are `nil`. -/
theorem dump_eq_iff {c d : Document} (hc : c.Legible) (hd : d.Legible) :
    c.dump = d.dump ↔ c.withoutNil.definitions = d.withoutNil.definitions :=
  ⟨withoutNil_eq_of_dump_eq hc hd, dump_eq_of_withoutNil_eq⟩

/-- A query of one field. -/
def queryOf (aliasName : Option String) : List Definition :=
  [.operation (.shorthand [.field aliasName "a" [] [] []])]

private theorem legible_queryOf {aliasName : Option String} (h : NameOrAbsent aliasName) :
    (ofDefinitions (queryOf aliasName)).Legible := by
  intro definition hdefinition
  obtain rfl := List.mem_singleton.mp hdefinition
  refine ⟨by rintro _ ⟨⟩, by rintro _ ⟨⟩, by rintro _ ⟨⟩, fun s hs => ?_⟩
  obtain rfl := List.mem_singleton.mp hs
  exact ⟨h, by decide, by rintro _ ⟨⟩, by rintro _ ⟨⟩, trivial⟩

/-- The alias `nil` does not show, and `null` does. -/
theorem dump_of_aliases :
    (ofDefinitions (queryOf (some "nil"))).dump = (ofDefinitions (queryOf none)).dump ∧
      (ofDefinitions (queryOf (some "null"))).dump ≠ (ofDefinitions (queryOf none)).dump := by
  have hname : ∀ {text}, isName text = true → NameOrAbsent (some text) := by
    rintro text htext _ ⟨⟩
    exact htext
  have hnone : (ofDefinitions (queryOf none)).Legible := legible_queryOf (by rintro _ ⟨⟩)
  refine ⟨(dump_eq_iff (legible_queryOf (hname (by decide))) hnone).mpr rfl, fun h => ?_⟩
  have hdefinitions := (dump_eq_iff (legible_queryOf (hname (by decide))) hnone).mp h
  cases hdefinitions

/-! ## Documents that were read -/

/-- What is read, within whatever limits, is legible. -/
theorem legible_of_parseWithin {limits : Limits} {source : String} {d : Document}
    (h : parseWithin limits source = .ok d) : d.Legible := by
  have hread : parseWithin ⟨limits.depth, none⟩ source = .ok d := by
    unfold parseWithin at h
    cases hlength : limits.length with
    | none =>
      simp only [hlength] at h
      exact h
    | some limit =>
      simp only [hlength] at h
      split at h
      · cases h
      · exact h
  exact (wellFormed_of_parseWithin hread).1.legible

/-- **Without `nil` a dump is unambiguous.** Two sources whose documents use `nil` neither as an
alias nor as the name of an operation have the same dump only if they define the same. -/
theorem definitions_eq_of_dump_eq {limits limits' : Limits} {source source' : String}
    {c d : Document} (hc : parseWithin limits source = .ok c)
    (hd : parseWithin limits' source' = .ok d) (hcnil : c.withoutNil = c)
    (hdnil : d.withoutNil = d) (h : c.dump = d.dump) : c.definitions = d.definitions := by
  rw [← hcnil, ← hdnil]
  exact withoutNil_eq_of_dump_eq (legible_of_parseWithin hc) (legible_of_parseWithin hd) h

/-- One query in two layouts. -/
theorem definitions_eq_of_layouts : ∃ c d, parse "\x7ba\x7d" = .ok c ∧
    parse "\x7b a, \x7d" = .ok d ∧ c.dump = d.dump ∧ c.definitions = d.definitions := by
  have hc : parse "\x7ba\x7d" = .ok ⟨queryOf none, some "\x7ba\x7d"⟩ := rfl
  have hd : parse "\x7b a, \x7d" = .ok ⟨queryOf none, some "\x7b a, \x7d"⟩ := rfl
  exact ⟨_, _, hc, hd, rfl, definitions_eq_of_dump_eq hc hd rfl rfl rfl⟩

/-- Two sources of different documents that have the same dump: the alias `nil` is taken for what is
absent. -/
theorem dump_of_alias_nil : ∃ c d, parse "\x7bnil:a\x7d" = .ok c ∧ parse "\x7ba\x7d" = .ok d ∧
    c.dump = d.dump ∧ c.equiv d = false :=
  ⟨⟨queryOf (some "nil"), _⟩, ⟨queryOf none, _⟩, rfl, rfl, dump_eq_of_withoutNil_eq rfl, by decide⟩

end Document

end GraphQLSyntax
