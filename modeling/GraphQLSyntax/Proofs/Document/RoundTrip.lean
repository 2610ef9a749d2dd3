import GraphQLSyntax.Proofs.Document.Print
import GraphQLSyntax.Proofs.Grammar.Acceptance
import GraphQLSyntax.Proofs.WellFormed.Derived
import GraphQLSyntax.Proofs.WellFormed.Written

/-!
# Round trips

The text of a well-formed document is scanned as the tokens that it was written from, and these
derive the document again. What is read from a text is well formed, so it can be written and read
again.

* `Document.wellFormed_of_parseWithin`: what is read is well formed and within the limit.
* `Document.parseWithin_print_iff`: exactly these documents are read from their own text.
* `Document.parseWithin_print_of_parseWithin`: so are those that were read from any text.
-/

namespace GraphQLSyntax

open GraphQLSyntax.Parser

namespace Document

/-- No level is deeper than the limit, if there is one. -/
def IsWithin (d : Document) (limit : Option Nat) : Prop :=
  ∀ n, limit = some n → d.depth ≤ n

/-- What is read from a text is well formed and within the limit. -/
theorem wellFormed_of_parseWithin {limit : Option Nat} {source : String} {d : Document}
    (h : parseWithin ⟨limit, none⟩ source = .ok d) : d.WellFormed ∧ d.IsWithin limit := by
  obtain ⟨⟨rest, hparse⟩, -⟩ := ofRun_eq_ok.mp (parseWithin_eq_ok.mp h).2
  have hderive := (Definition.recognizes_parseAll _).mp hparse
  obtain ⟨⟨hwf, hdepth⟩, -⟩ :=
    Definition.yields_allDerive _ hderive (Scanner.readable_kinds source)
  refine ⟨hwf, ?_⟩
  rintro n rfl
  exact hdepth

/-- The tokens of a document are read as its definitions within any limit that it is within. -/
theorem parseAll_tokens {d : Document} (hwf : d.WellFormed) {limit : Option Nat}
    (hlimit : d.IsWithin limit) :
    Definition.parseAll (limit.getD d.tokens.length) d.tokens = .ok (d.definitions, []) := by
  have hderive : Definition.AllDerive d.depth d.tokens d.definitions [] :=
    Definition.allDerive_tokens hwf (Nat.le_refl _) false
  apply Definition.parseAll_eq_ok_of_length_le ((Definition.recognizes_parseAll _).mpr hderive)
  cases limit with
  | none => exact .inr (Nat.le_refl _)
  | some n => exact .inl (hlimit n rfl)

theorem parseWithin_print {d : Document} (hwf : d.WellFormed) {limit : Option Nat}
    (hlimit : d.IsWithin limit) :
    parseWithin ⟨limit, none⟩ d.print = .ok ⟨d.definitions, some d.print⟩ := by
  obtain ⟨hkinds, hlast⟩ := runOf_print hwf.legible
  refine parseWithin_eq_ok.mpr ⟨rfl, ofRun_eq_ok.mpr ⟨⟨[], ?_⟩, hlast⟩⟩
  rw [hkinds]
  exact parseAll_tokens hwf hlimit

/-- **Exactly the well-formed documents are read from their own text**, if they are within the
limit. -/
theorem parseWithin_print_iff (d : Document) (limit : Option Nat) :
    (∃ d', parseWithin ⟨limit, none⟩ d.print = .ok d' ∧ d'.definitions = d.definitions) ↔
      d.WellFormed ∧ ∀ n, limit = some n → d.depth ≤ n := by
  constructor
  · rintro ⟨d', hparse, hdefinitions⟩
    obtain ⟨hwf, hlimit⟩ := wellFormed_of_parseWithin hparse
    unfold WellFormed at hwf ⊢
    unfold IsWithin depth at hlimit
    rw [hdefinitions] at hwf hlimit
    exact ⟨hwf, hlimit⟩
  · rintro ⟨hwf, hlimit⟩
    exact ⟨_, parseWithin_print hwf hlimit, rfl⟩

/-- **What was read can be written and read again**, and nothing is lost. -/
theorem parseWithin_print_of_parseWithin {limit : Option Nat} {source : String} {d : Document}
    (h : parseWithin ⟨limit, none⟩ source = .ok d) :
    ∃ d', parseWithin ⟨limit, none⟩ d.print = .ok d' ∧ d'.definitions = d.definitions ∧
      d'.dump = d.dump ∧ d'.print = d.print := by
  obtain ⟨hwf, hlimit⟩ := wellFormed_of_parseWithin h
  exact ⟨_, parseWithin_print hwf hlimit, rfl, rfl, rfl⟩

theorem parseWithin_print_repeated_keys :
    ∃ d, parseWithin ⟨some 2, none⟩ "type A query \x7ba(b: \x7bc: -1, d: e, c: null\x7d)\x7d" = .ok d ∧
      d.print = "type A query\x7ba(b:\x7bc:null d:e\x7d)\x7d" ∧
      ∃ d', parseWithin ⟨some 2, none⟩ d.print = .ok d' ∧ d'.definitions = d.definitions ∧
        d'.dump = d.dump ∧ d'.print = d.print := by
  have h : parseWithin ⟨some 2, none⟩ "type A query \x7ba(b: \x7bc: -1, d: e, c: null\x7d)\x7d" =
      .ok ⟨[.type ⟨⟨none, false⟩, "A", [], .object [] []⟩,
        .operation ⟨none, .query, [], [], [.field none "a"
          [⟨"b", .object [("c", .null), ("d", .enum "e")]⟩] [] []]⟩],
        some "type A query \x7ba(b: \x7bc: -1, d: e, c: null\x7d)\x7d"⟩ := rfl
  exact ⟨_, h, rfl, parseWithin_print_of_parseWithin h⟩

end Document

end GraphQLSyntax
