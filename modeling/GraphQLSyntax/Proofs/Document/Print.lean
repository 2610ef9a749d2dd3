import GraphQLSyntax.Proofs.Token.Layout
import GraphQLSyntax.Proofs.WellFormed.Spelled

/-!
# Printed documents

The text of a document is scanned as the tokens that it was written from, each on its own spelling.
This needs no grammar: all that matters is that the document is legible.

* `Document.runOf_print`: what a run of the scanner gives.
* `Document.lex_print`: the tokens of the text, and where they stand.
-/

namespace GraphQLSyntax

namespace Document

theorem lex_spelled {d : Document} (h : d.Legible) :
    lex d.print = .ok (Layout.spelled d.tokens).tokens := by
  have hspellable := spellable_tokens h
  rw [print, ← Layout.text_spelled]
  exact (Layout.scanned_spelled hspellable.readable hspellable.keepsApart).lex

/-- A run of the scanner gives the tokens that the document was written from. -/
theorem runOf_print {d : Document} (h : d.Legible) :
    (Scanner.runOf d.print).kinds = d.tokens ∧
      ∃ token, (Scanner.runOf d.print).last = .ok token := by
  have hlex := lex_spelled h
  obtain ⟨last, hlast, -⟩ := Scanner.lex_eq_ok.mp hlex
  refine ⟨?_, last, hlast⟩
  have hkinds := congrArg (List.filterMap id) (Layout.kinds_spelled d.tokens)
  rw [List.filterMap_map] at hkinds
  rw [← Scanner.kinds_of_lex hlex]
  simpa using hkinds

/-- **The text of a legible document is scanned as the tokens that it was written from**, each on
its own spelling, and no number stands directly in front of a spread. -/
theorem lex_print {d : Document} (h : d.Legible) :
    lex d.print = .ok (Layout.spelled d.tokens).tokens ∧
      (Layout.spelled d.tokens).text = d.print.toList ∧
      (Layout.spelled d.tokens).tokens.map Token.kind = d.tokens.map some ++ [none] ∧
      ∀ front l r back, d.tokens = front ++ l :: r :: back → l.isNumber = true →
        r ≠ punct .spread := by
  have htext : (Layout.spelled d.tokens).text = d.print.toList := by
    rw [Layout.text_spelled, print, String.toList_ofList]
  refine ⟨lex_spelled h, htext, Layout.kinds_spelled d.tokens,
    fun front l r back htokens hnumber => ?_⟩
  have hkeeps : KeepsApart (front ++ l :: r :: back) := htokens ▸ (spellable_tokens h).keepsApart
  exact hkeeps.of_append.1 hnumber

/-- A selection set without selections, a type that is twice non-null, a spread of `on`, and strings
behind a number and each other. -/
theorem lex_print_of_ungrammatical :
    ∃ d : Document, d.print = "query($a:T!!=1)\x7bf(x:[-1\"\" \"\"])...on...on T\x7b\x7d\x7d" ∧
      lex d.print = .ok (Layout.spelled d.tokens).tokens ∧
      (Layout.spelled d.tokens).tokens.map Token.kind = d.tokens.map some ++ [none] := by
  have h : (ofDefinitions [.operation ⟨none, .query,
      [⟨"a", .nonNull (.nonNull (.named "T")), some (.int 1), []⟩], [],
      [.field none "f" [⟨"x", .list [.int (-1), .string "", .string ""]⟩] [] [],
        .spread "on" [], .inline "T" [] []]⟩]).Legible := by
    have hnames : isName "a" = true ∧ isName "T" = true ∧ isName "f" = true ∧
        isName "x" = true ∧ isName "on" = true := by decide
    simp [Legible, ofDefinitions, Definition.Legible, OperationDefinition.Legible,
      VariableDefinition.Legible, NameOrAbsent, TypeRef.Legible, Value.DefaultLegible,
      Value.Legible, Value.ItemsLegible, Selection.Legible, Selection.AllLegible,
      Argument.Legible, hnames]
  obtain ⟨hlex, -, hkinds, -⟩ := lex_print h
  exact ⟨_, rfl, hlex, hkinds⟩

end Document

end GraphQLSyntax
