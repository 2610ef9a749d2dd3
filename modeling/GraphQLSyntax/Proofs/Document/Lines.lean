import GraphQLSyntax.Proofs.Grammar.Boundary
import GraphQLSyntax.Proofs.Token.Lines

/-!
# Documents line by line

Two sources with a line end between them are read as one document, the definitions of the first in
front of those of the second. Only a brace at the front of the second can be taken away from it: by
a definition at the end of the first that lacks its block.

* `Document.parseWithin_line`: when the definitions of two sources are those of both.
-/

namespace GraphQLSyntax

namespace Document

/-- Without a limit there is more room for tokens among others than for them alone. -/
private theorem parseAll_among {depth : Option Nat} {kinds all : List TokenKind}
    {ds : List Definition} (h : Definition.parseAll (depth.getD kinds.length) kinds = .ok (ds, []))
    (hle : kinds.length ≤ all.length) :
    Definition.parseAll (depth.getD all.length) kinds = .ok (ds, []) := by
  apply Definition.parseAll_eq_ok_of_length_le h
  cases depth with
  | none => exact .inr hle
  | some n => exact .inl (Nat.le_refl n)

/-- **Two sources with a line end between them are read as one.** Its definitions are those of both,
unless the second source begins with a brace and the last definition of the first lacks its block. -/
theorem parseWithin_line {depth : Option Nat} {first second : String} {a b : Document}
    (ha : parseWithin ⟨depth, none⟩ first = .ok a) (hb : parseWithin ⟨depth, none⟩ second = .ok b) :
    (∃ d, parseWithin ⟨depth, none⟩ (first ++ "\n" ++ second) = .ok d ∧
      d.definitions = a.definitions ++ b.definitions) ↔
    ¬ (a.definitions.getLast?.any Definition.lacksBlock = true ∧
      ∃ token, (Scanner.ofSource second).scan.1 = .ok token ∧
        token.kind = some (punct .braceOpen)) := by
  obtain ⟨-, hfirst, t, ht⟩ := parseWithin_eq_ok_iff.mp ha
  obtain ⟨-, hsecond, u, hu⟩ := parseWithin_eq_ok_iff.mp hb
  obtain ⟨hkinds, hlast⟩ := Scanner.kinds_line ht hu
  have hfirst' := parseAll_among hfirst
    (List.sublist_append_left _ (Scanner.runOf second).kinds).length_le
  have hsecond' := parseAll_among hsecond
    (List.sublist_append_right (Scanner.runOf first).kinds _).length_le
  have hhead : (Scanner.runOf second).kinds.head? = some (punct .braceOpen) ↔ _ :=
    Scanner.head?_kinds
  have happend := Definition.parseAll_append hfirst' hsecond'
  rw [← hkinds, hhead] at happend
  rw [← happend]
  constructor
  · rintro ⟨d, hd, hdefinitions⟩
    obtain ⟨-, hparse, -⟩ := parseWithin_eq_ok_iff.mp hd
    rw [hdefinitions] at hparse
    exact hparse
  · intro hparse
    exact ⟨⟨_, some _⟩, parseWithin_eq_ok_iff.mpr ⟨rfl, hparse, hlast⟩, rfl⟩

theorem parseWithin_line_of_type :
    (∃ d, parseWithin ⟨some 1, none⟩ "scalar A # a\n\x7ba\x7d" = .ok d ∧
      d.definitions = [.type ⟨⟨none, false⟩, "A", [], .scalar⟩] ++
        [.operation ⟨none, .query, [], [], [.field none "a" [] [] []]⟩]) ∧
    ¬ ∃ d, parseWithin ⟨some 1, none⟩ "type A # a\n\x7ba\x7d" = .ok d ∧
      d.definitions = [.type ⟨⟨none, false⟩, "A", [], .object [] []⟩] ++
        [.operation ⟨none, .query, [], [], [.field none "a" [] [] []]⟩] := by
  have hscalar : parseWithin ⟨some 1, none⟩ "scalar A # a" =
      .ok ⟨[.type ⟨⟨none, false⟩, "A", [], .scalar⟩], some "scalar A # a"⟩ := rfl
  have hobject : parseWithin ⟨some 1, none⟩ "type A # a" =
      .ok ⟨[.type ⟨⟨none, false⟩, "A", [], .object [] []⟩], some "type A # a"⟩ := rfl
  have hquery : parseWithin ⟨some 1, none⟩ "\x7ba\x7d" =
      .ok ⟨[.operation ⟨none, .query, [], [], [.field none "a" [] [] []]⟩], some "\x7ba\x7d"⟩ := rfl
  refine ⟨(parseWithin_line hscalar hquery).mpr ?_,
    fun h => (parseWithin_line hobject hquery).mp h ?_⟩
  · rintro ⟨hlacks, -⟩
    cases hlacks
  · exact ⟨rfl, _, rfl, rfl⟩

end Document

end GraphQLSyntax
