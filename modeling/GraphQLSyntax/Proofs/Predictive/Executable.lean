import GraphQLSyntax.Proofs.Predictive.Selections

/-!
# Predictive parsers of operations and fragments

An executable definition begins with its keyword, so its contract is about what stands behind that.
-/

namespace GraphQLSyntax

open GraphQLSyntax.Parser

variable {room : Nat}

namespace VariableDefinition

theorem predictive (room : Nat) :
    Predictive (.taking (· = punct .dollar) fun t => t = punct .bang ∨ t = punct .equals ∨
      t = punct .parenOpen ∨ t = punct .atSign) parse room := by
  have h := (predictive_expect .dollar).bind (fun _ => predictive_name.bind (fun name =>
    (predictive_expect .colon).bind (fun _ => (TypeRef.predictive room).bind (fun type =>
    (Value.predictive_parseDefault room).bind (fun default =>
    (Directive.predictive_parseAll room).bind (fun directives =>
    .pure (⟨name, type, default, directives⟩ : VariableDefinition))
    (by simp)) (by simp)) (by simp)) (by simp)) (by simp)) (by simp)
  exact h.mono ⟨by simp, by simp, by simp, by simp; grind⟩

theorem takes_parse (room : Nat) : Takes 1 (parse room) :=
  Predictive.takes predictive room

end VariableDefinition

namespace OperationDefinition

theorem predictiveBehind (t : TokenKind) (operation : OperationType) :
    PredictiveBehind t .empty (fun room => parse room operation) room := by
  have h := predictive_name?.bind (fun name =>
    ((VariableDefinition.predictive room).optionalList .variableDefinitions .parenOpen .parenClose
      VariableDefinition.takes_parse rfl (by simp) (by simp)).bind
    (fun variableDefinitions => (Directive.predictive_parseAll room).bind (fun directives =>
    (Selection.predictive_parseSet room).bind (fun selections =>
    .pure (⟨name, operation, variableDefinitions, directives, selections⟩ : OperationDefinition))
    (by simp)) (by simp)) (by simp)) (by simp)
  exact h.behind (fun _ _ => rfl) (by simp)

end OperationDefinition

namespace FragmentDefinition

private theorem predictive_behindName (name : String) :
    Predictive (.taking (· = .name "on") fun _ => False) (fun room => (do
      expectKeyword "on"
      let condition ← Parser.name
      let directives ← Directive.parseAll .dynamic room
      let selections ← Selection.parseSet room
      return { name, condition, directives, selections } : Parser FragmentDefinition)) room := by
  have h := (predictive_expectKeyword "on" (by decide)).bind
    (fun _ => predictive_name.bind (fun condition =>
    (Directive.predictive_parseAll room).bind (fun directives =>
    (Selection.predictive_parseSet room).bind (fun selections =>
    .pure (⟨name, condition, directives, selections⟩ : FragmentDefinition))
    (by simp)) (by simp)) (by simp)) (by simp)
  exact h.mono ⟨by simp, by simp, by simp, by simp⟩

private theorem parse_of_name {text : String} (h : text ≠ "on") (room : Nat) (t : TokenKind)
    (ts : List TokenKind) :
    parse room (t :: .name text :: ts) = (do
      expectKeyword "on"
      let condition ← Parser.name
      let directives ← Directive.parseAll .dynamic room
      let selections ← Selection.parseSet room
      return { name := text, condition, directives, selections } : Parser FragmentDefinition) ts := by
  rw [parse_run, if_neg (by simpa using h)]
  exact bind_of_ok (name_eq_ok.mpr rfl) _

theorem predictiveBehind (t : TokenKind) :
    PredictiveBehind t .empty (fun room => parse room) room := by
  have h : Predictive (.taking (· = .name "a") fun _ => False)
      (fun room ts => parse room (t :: ts)) room := by
    refine .dispatch (fun t => ∃ text, t = .name text ∧ text ≠ "on")
      (f := fun t => if t = some (.name "on") then .expectedFragmentName else .expectedName)
      ?_ ?_ ⟨.name "a", ⟨"a", rfl, by decide⟩, by decide, rfl⟩
    · rintro _ ⟨text, rfl, htext⟩
      exact (predictive_behindName text).behind (fun room ts => parse_of_name htext room t ts)
        (by simp)
    · intro room ts hts
      rw [parse_run]
      split
      · rfl
      · next hon =>
        refine bind_of_error ?_ _
        rcases ts with _ | ⟨_ | text | _ | _ | _, ts⟩
        case cons.name => exact (hts _ rfl ⟨text, rfl, by simpa using hon⟩).elim
        all_goals rfl
  exact h.behind (fun _ _ => rfl) (by simp)

end FragmentDefinition

end GraphQLSyntax
