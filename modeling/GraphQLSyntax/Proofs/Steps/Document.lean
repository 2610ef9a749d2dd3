import GraphQLSyntax.Proofs.Grammar.Boundary
import GraphQLSyntax.Proofs.Steps.TypeSystem

/-!
# Documents, stepwise

The program of a document is made for all texts of up to a number of tokens.

* `Definition.stepwiseAll`: its accounts are those of the definitions in a row.
-/

namespace GraphQLSyntax

variable {n : Nat}

namespace Heading

def stepwise (n : Nat) : Stepwise n (fun _ => parse) (Exactly fun h => .flat h.tokens) :=
  (Stepwise.string?.bind fun description => (Stepwise.eat (.name "extend")).bind fun isExtension =>
    .pure (⟨description, isExtension⟩ : Heading)).mono (by
    rintro _ _ ⟨description, _, _, rfl, ⟨isExtension, _, _, rfl, ⟨rfl, rfl⟩, rfl⟩, rfl⟩
    cases isExtension <;> ext1 <;> simp [tokens])

instance (h : Heading) : (k : DefinitionKeyword) → Decidable (h.Allows k)
  | .operation _ | .fragment => inferInstanceAs (Decidable (_ ∧ _))
  | .directive => inferInstanceAs (Decidable (_ = _))
  | .schema | .type _ => .isTrue trivial

end Heading

namespace Definition

def written (optional : Bool) (d : Definition) : Written where
  tokens := d.tokensWith optional
  depth := d.depth

/-- The keyword that a token is, if it may stand behind the heading. -/
private def keyword? (heading : Heading) (t : TokenKind) : Option { k // heading.Allows k } :=
  match t with
  | .name text => (DefinitionKeyword.ofName? text).bind fun k =>
    if h : heading.Allows k then some ⟨k, h⟩ else none
  | _ => none

private theorem name_of_keyword? {heading : Heading} {t : TokenKind}
    {k : { k // heading.Allows k }} (h : keyword? heading t = some k) : t = .name k.1.name := by
  cases t with
  | name text =>
    obtain ⟨k', hk', hk⟩ := Option.bind_eq_some_iff.mp h
    split at hk
    · cases hk
      rw [DefinitionKeyword.name_of_ofName? hk']
    · cases hk
  | _ => cases h

private theorem parseBody_run (room : Nat) (heading : Heading) (ts : List TokenKind) :
    parseBody room heading ts = match ts.head?.bind (keyword? heading) with
      | some k => parseOf room heading k (.name k.1.name :: ts.tail)
      | none => .error ⟨.fault (bodyFault heading ts.head?), ts⟩ := by
  rcases ts with _ | ⟨_ | text | _ | _ | _, ts⟩
  case cons.name =>
    cases hk : DefinitionKeyword.ofName? text with
    | none =>
      rw [parseBody_of_not_allowed (by simp [hk])]
      simp [keyword?, hk, bodyFault]
    | some k =>
      by_cases h : heading.Allows k
      · rw [parseBody_of_keyword hk h]
        simp [keyword?, hk, h, DefinitionKeyword.name_of_ofName? hk]
      · rw [parseBody_of_not_allowed (by simpa [hk] using h)]
        simp [keyword?, hk, h, bodyFault]
  all_goals rfl

private theorem heading_eq_nil {heading : Heading}
    (h : heading.description = none ∧ heading.isExtension = false) : heading.tokens = [] := by
  rw [Heading.tokens, h.1, h.2]
  rfl

private def stepwiseOf (n : Nat) (heading : Heading) : (k : DefinitionKeyword) → heading.Allows k →
    Stepwise n (fun room ts => parseOf room heading k (.name k.name :: ts)) fun d w =>
      ∃ optional, .flat heading.tokens ++ (.token (.name k.name) ++ w) = d.written optional
  | .operation operationType, h =>
    ((OperationDefinition.stepwise n (.name operationType.name) operationType).map operation).mono (by
      rintro _ w ⟨d, rfl, hw⟩
      rw [heading_eq_nil h]
      exact ⟨true, (Written.empty_append _).trans hw⟩)
  | .fragment, h => ((FragmentDefinition.stepwise n (.name "fragment")).map fragment).mono (by
      rintro _ w ⟨d, rfl, hw⟩
      rw [heading_eq_nil h]
      exact ⟨false, (Written.empty_append _).trans hw⟩)
  | .schema, _ => ((SchemaDefinition.stepwise n heading (.name "schema")).map schema).mono (by
      rintro _ w ⟨d, rfl, hw⟩
      exact ⟨false, hw⟩)
  | .directive, h =>
    ((DirectiveDefinition.stepwise n heading.description (.name "directive")).map directive).mono (by
      rintro _ w ⟨d, rfl, optional, hw⟩
      have hheading : heading.tokens = descriptionTokens heading.description := by
        rw [Heading.tokens, h]
        exact List.append_nil _
      rw [hheading]
      exact ⟨optional, hw⟩)
  | .type kind, _ => ((TypeDefinition.stepwise n heading kind (.name kind.keyword)).map type).mono (by
      rintro _ w ⟨d, rfl, optional, hw⟩
      exact ⟨optional, hw⟩)

private def stepwiseBody (n : Nat) (heading : Heading) :
    Stepwise n (fun room => parseBody room heading) fun d w =>
      ∃ optional, .flat heading.tokens ++ w = d.written optional :=
  ((Stepwise.branch (keyword? heading) (fun k => stepwiseOf n heading k k.2)
    (Stepwise.refuseBy (R := fun _ _ => False) (bodyFault heading)) (Nat.le_succ n)).mono (by
    rintro d _ (⟨t, k, v, hk, ⟨optional, hv⟩, rfl⟩ | ⟨⟨⟩⟩)
    rw [name_of_keyword? hk]
    exact ⟨optional, hv⟩)).congr fun room ts _ => by
    rw [parseBody_run]
    cases ts.head?.bind (keyword? heading) <;> rfl

/-- A definition is written as it was read, up to its optional token. -/
def stepwise (n : Nat) :
    Stepwise n parse fun d w => ∃ optional, w = d.written optional :=
  (Stepwise.lookIf (· = some (punct .braceOpen))
    (((OperationDefinition.stepwiseShorthand n).map operation).mono (by
      rintro _ w ⟨d, rfl, hshorthand, htokens, hdepth⟩
      refine ⟨false, ?_⟩
      ext1
      · simp [written, tokensWith, OperationDefinition.tokens, hshorthand, htokens]
      · exact hdepth))
    (((Heading.stepwise n).bind fun heading => stepwiseBody n heading).mono (by
      rintro d _ ⟨heading, _, _, rfl, ⟨optional, hw⟩, rfl⟩
      exact ⟨optional, hw⟩))).congr fun room ts _ => by
    rw [parse_run, ← LawfulFunctor.comp_map]
    rfl

/-- Behind a definition without its block there is no brace, and behind the last one nothing. -/
def stepwiseAll (n : Nat) :
    Stepwise n parseAll fun ds w => ∃ ws, Stepwise.Row (fun d w => ∃ optional, w = d.written optional)
      (fun d next => d.lacksBlock = true → next ≠ some (punct .braceOpen)) ds ws ∧
        w = .concat ws :=
  Stepwise.untilEnd (stepwise n) takes_parse
    (fun _ _ _ _ h hd => head_ne_of_lacksBlock h hd)
    (fun room => parseAll_run room (takes_parse room)) (Nat.le_refl n)

end Definition

end GraphQLSyntax
