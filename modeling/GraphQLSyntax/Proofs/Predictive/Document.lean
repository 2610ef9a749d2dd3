import GraphQLSyntax.Proofs.Predictive.Executable
import GraphQLSyntax.Proofs.Predictive.TypeSystem

/-!
# Predictive parsers of documents

A definition is recognized by its keyword behind an optional heading, and a document is definitions
up to the end. No definition begins with what could belong to the one in front of it, except for
the brace of a selection set.
-/

namespace GraphQLSyntax

open GraphQLSyntax.Parser

variable {room : Nat}

namespace Heading

theorem predictive (room : Nat) :
    Predictive (.optional (fun _ => False)
      fun t => (∃ value, t = .string value) ∨ t = .name "extend") (fun _ => parse) room := by
  have h := predictive_string?.bind (fun description =>
    (predictive_eat (.name "extend") : Predictive _ _ room).bind
    (fun isExtension => .pure (⟨description, isExtension⟩ : Heading)) (by simp)) (by simp)
  exact h.mono ⟨by simp, by simp, by simp, by simp⟩

end Heading

namespace Definition

private theorem predictiveBehind_parseOf (room : Nat) (t : TokenKind) (heading : Heading)
    (k : DefinitionKeyword) :
    PredictiveBehind t (.optional (fun _ => False) TypeBody.GoesOn)
      (fun room => parseOf room heading k) room := by
  cases k with
  | operation operationType =>
    exact ((OperationDefinition.predictiveBehind t operationType).map operation).mono (by simp)
  | fragment => exact ((FragmentDefinition.predictiveBehind t).map fragment).mono (by simp)
  | schema =>
    refine ((SchemaDefinition.predictiveBehind t heading).map schema).mono ?_
    simp [TypeBody.GoesOn]
  | directive =>
    refine ((DirectiveDefinition.predictiveBehind t heading.description).map directive).mono ?_
    simp [TypeBody.GoesOn]
  | type kind => exact (TypeDefinition.predictiveBehind t heading kind).map type

/-- Why a token is refused that is not a keyword. -/
def bodyFault (heading : Heading) : Option TokenKind → SyntaxFault
  | some (.name text) => faultFor heading text
  | _ => .expectedDefinition

theorem predictive_parseBody (heading : Heading) :
    Predictive (.taking (· = .name "scalar") TypeBody.GoesOn)
      (fun room => parseBody room heading) room := by
  refine .dispatch
    (fun t => ∃ text k, t = .name text ∧ DefinitionKeyword.ofName? text = some k ∧
      heading.Allows k)
    (f := bodyFault heading) ?_ ?_
    ⟨.name "scalar", ⟨"scalar", .type .scalar, rfl, by decide, trivial⟩, by decide, rfl⟩
  · rintro _ ⟨text, k, rfl, hk, hallows⟩
    obtain ⟨π, q, hq, hg, hπ⟩ := predictiveBehind_parseOf room (.name text) heading k
    exact hπ.behind (fun room ts => (parseBody_of_keyword hk hallows room ts).trans (hq room ts)) hg
  · intro room ts hts
    rcases ts with _ | ⟨_ | text | _ | _ | _, ts⟩
    case cons.name =>
      exact parseBody_of_not_allowed (fun k hk hallows => hts _ rfl ⟨text, k, rfl, hk, hallows⟩)
        room ts
    all_goals rfl

theorem predictive (room : Nat) :
    Predictive (.taking (· = .name "scalar") TypeBody.GoesOn) parse room := by
  obtain ⟨π, q, hq, hg, hπ⟩ := (Selection.predictiveBehind_parseSet room).map
    fun selections => operation (.shorthand selections)
  have hbody :=
    (Heading.predictive room).bind (fun heading => predictive_parseBody heading) (by simp)
  refine (Predictive.choose (k := punct .braceOpen) hπ hbody (by simp) fun room ts => ?_).mono
    ⟨by simp, by simp, by simp, fun t ht => ?_⟩
  · rw [parse_run]
    split
    · next hbrace =>
      obtain ⟨tail, rfl⟩ := List.head?_eq_some_iff.mp hbrace
      exact hq room tail
    · rfl
  · rcases ht with ht | ht | ht
    · exact (hg t ht).elim
    · simpa using ht
    · simp at ht

theorem takes_parse (room : Nat) : Takes 1 (parse room) :=
  Predictive.takes predictive room

theorem predictive_parseAll (room : Nat) :
    Predictive (.optional (· = .name "scalar") fun _ => True) parseAll room :=
  (predictive room).untilEnd takes_parse rfl rfl (by simp [TypeBody.GoesOn])
    fun room ts => parseAll_run room (takes_parse room) ts

end Definition

end GraphQLSyntax
