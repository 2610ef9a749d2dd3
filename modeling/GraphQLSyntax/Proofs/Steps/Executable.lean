import GraphQLSyntax.Proofs.Steps.Values

/-!
# Executable definitions, stepwise

Selection sets nest like lists do: inside of the braces of one there is one token less.
-/

namespace GraphQLSyntax

open GraphQLSyntax.Parser (Predictive)

variable {n : Nat}

/-! ## Selections -/

namespace Selection

def written (s : Selection) : Written where
  tokens := s.tokens
  depth := s.depth

/-- Selections in their braces. -/
def setWritten (selections : List Selection) : Written where
  tokens := setTokens selections
  depth := listDepth depth selections + 1

/-- The selections of a field, if it has any. -/
def ownWritten (selections : List Selection) : Written :=
  if selections.isEmpty then .empty else setWritten selections

private theorem setWritten_eq (selections : List Selection) :
    (Stepwise.closed .braceClose written selections).within .curly = setWritten selections := by
  ext1
  · simp [setWritten, setTokens, Stepwise.closed, Bracket.opening, listTokens_eq, written,
      List.flatMap_map]
  · simp [setWritten, Stepwise.closed, written]

private def stepwiseAlias (n : Nat) (first : String) :
    Stepwise n (fun _ => parseAlias first) fun names w =>
      .token (.name first) ++ w = .flat (nameTokens names) :=
  (Stepwise.ifEat (punct .colon) (Stepwise.name.map fun name => (some first, name))
    (.pure (none, first))).mono (by
    rintro _ _ (⟨_, ⟨name, rfl, rfl⟩, rfl⟩ | ⟨rfl, rfl⟩)
    · rfl
    · rfl)

section

variable {set : Nat → Parser (List Selection)}
  (X : Stepwise n set fun selections w => selections ≠ [] ∧ w = setWritten selections)

private def stepwiseOwn : Stepwise n (fun room => parseOwn (set room)) (Exactly ownWritten) :=
  (Stepwise.lookIf (R := Exactly ownWritten) (· = some (punct .braceOpen))
    (X.mono (by
      rintro selections _ ⟨hne, rfl⟩
      simp [Exactly, ownWritten, hne]))
    ((Stepwise.pure []).mono (by
      rintro _ _ ⟨rfl, rfl⟩
      rfl))).congr fun room ts _ => parseOwn_run (set room) ts

private def stepwiseField : Stepwise n (fun room => parseField room (set room)) (Exactly written) :=
  ((Stepwise.name.bind fun first => (stepwiseAlias n first).bind fun names =>
    (Argument.stepwiseAll .dynamic n).bind fun arguments =>
    (Directive.stepwiseAll .dynamic n).bind fun directives =>
    (stepwiseOwn X).bind fun selections =>
    .pure (field names.1 names.2 arguments directives selections)).mono (by
    rintro _ _ ⟨first, _, _, rfl, ⟨names, v, _, hnames, ⟨arguments, _, _, rfl, ⟨directives, _, _,
      rfl, ⟨selections, _, _, rfl, ⟨rfl, rfl⟩, rfl⟩, rfl⟩, rfl⟩, rfl⟩, rfl⟩
    rw [Exactly, ← Written.append_assoc, hnames]
    have hdepth : (ownWritten selections).depth =
        if selections.isEmpty then 0 else listDepth depth selections + 1 := by
      unfold ownWritten
      split <;> rfl
    have htokens : (ownWritten selections).tokens =
        if selections.isEmpty then [] else setTokens selections := by
      unfold ownWritten
      split <;> rfl
    ext1
    · simp [written, tokens_field, Argument.allWritten, Directive.allWritten, htokens]
    · simp [written, depth, Argument.allWritten, Directive.allWritten, hdepth, allDepth_eq])).congr
    fun room ts _ => by rw [parseField_eq]

/-- What stands behind a spread. -/
private def stepwiseSpread :
    Stepwise n (fun room => parseSpread room (set room)) fun s w =>
      .token (punct .spread) ++ w = s.written :=
  (Stepwise.lookIf (R := fun s w => .token (punct .spread) ++ w = s.written)
    (· = some (.name "on"))
    (((Stepwise.expectKeyword "on").bind fun _ => Stepwise.name.bind fun condition =>
      (Directive.stepwiseAll .dynamic n).bind fun directives =>
      X.map (inline condition directives)).mono (by
      rintro _ _ ⟨_, _, _, rfl, ⟨condition, _, _, rfl, ⟨directives, _, _, rfl, ⟨selections, rfl, -,
        rfl⟩, rfl⟩, rfl⟩, rfl⟩
      ext1
      · simp [written, tokens, setWritten, setTokens, Directive.allWritten]
      · simp [written, depth, setWritten, Directive.allWritten, allDepth_eq]))
    (((Stepwise.lookedUp some .expectedSpreadTarget .expectedSpreadTarget).bind fun text =>
      (Directive.stepwiseAll .dynamic n).map (spread text)).mono (by
      rintro _ _ ⟨text, _, _, ⟨_, ⟨⟩, rfl⟩, ⟨directives, rfl, rfl⟩, rfl⟩
      ext1
      · simp [written, tokens, Directive.allWritten]
      · simp [written, depth, Directive.allWritten]))).congr fun room ts _ => by
    rcases ts with _ | ⟨_ | text | _ | _ | _, ts⟩
    case cons.name =>
      by_cases h : text = "on"
      · subst h
        rw [parseSpread_on]
        simp only [Parser.map_eq_bind]
        rfl
      · rw [parseSpread_name _ _ h, List.head?_cons, if_neg (by simpa using h)]
        rfl
    all_goals rfl

private def stepwiseOne : Stepwise n (fun room => parseOne room (set room)) (Exactly written) :=
  ((Stepwise.ifNext (punct .spread) (stepwiseSpread X) (stepwiseField X) (Nat.le_succ n)).mono (by
    rintro s _ (⟨v, hv, rfl⟩ | rfl)
    · exact hv
    · rfl)).congr fun room ts _ => parseOne_run room (set room) ts

end

def stepwiseSet : (n : Nat) →
    Stepwise n parseSet fun selections w => selections ≠ [] ∧ w = setWritten selections
  | 0 => (Stepwise.nestedZero .curly).congr fun room ts _ => by rw [parseSet_eq]; rfl
  | n + 1 => ((Stepwise.nested .curly (fun room => parseOne room (parseSet room)) _
      (Stepwise.delimitedNonempty .selections .braceClose (stepwiseOne (stepwiseSet n))
        (Predictive.takes predictive))).mono (by
      rintro selections _ ⟨_, ⟨hne, rfl⟩, rfl⟩
      exact ⟨hne, setWritten_eq selections⟩)).congr fun room ts _ => by rw [parseSet_eq]; rfl

end Selection

/-! ## Operations and fragments -/

namespace VariableDefinition

def written (d : VariableDefinition) : Written where
  tokens := d.tokens
  depth := d.depth

def stepwise (n : Nat) : Stepwise n parse (Exactly written) :=
  ((Stepwise.expect .dollar).bind fun _ => Stepwise.name.bind fun name =>
    (Stepwise.expect .colon).bind fun _ => (TypeRef.stepwise n).bind fun type =>
    (Value.stepwiseDefault n).bind fun default =>
    (Directive.stepwiseAll .const n).bind fun directives =>
    .pure (⟨name, type, default, directives⟩ : VariableDefinition)).mono (by
    rintro _ _ ⟨_, _, _, rfl, ⟨name, _, _, rfl, ⟨_, _, _, rfl, ⟨type, _, _, rfl, ⟨default,
      _, _, rfl, ⟨directives, _, _, rfl, ⟨rfl, rfl⟩, rfl⟩, rfl⟩, rfl⟩, rfl⟩, rfl⟩, rfl⟩
    ext1
    · simp [written, tokens, TypeRef.written, Value.defaultWritten, Directive.allWritten]
    · simp [written, depth, TypeRef.written, Value.defaultWritten, Directive.allWritten])

end VariableDefinition

namespace OperationDefinition

/-- An operation with its keyword. -/
def written (d : OperationDefinition) : Written where
  tokens := d.fullTokens
  depth := d.depth

/-- What stands behind the keyword. -/
def stepwise (n : Nat) (t : TokenKind) (operation : OperationType) :
    Stepwise n (fun room ts => parse room operation (t :: ts)) fun d w =>
      .token (.name operation.name) ++ w = d.written :=
  ((Stepwise.name?.bind fun name =>
    (Stepwise.optionalList .variableDefinitions .parenOpen .parenClose
      (VariableDefinition.stepwise n) VariableDefinition.takes_parse).bind
      fun variableDefinitions =>
    (Directive.stepwiseAll .dynamic n).bind fun directives =>
    (Selection.stepwiseSet n).bind fun selections =>
    .pure (⟨name, operation, variableDefinitions, directives, selections⟩ :
      OperationDefinition)).mono (by
    rintro _ _ ⟨name, _, _, rfl, ⟨definitions, _, _, rfl, ⟨directives, _, _, rfl, ⟨selections, _, _,
      ⟨-, rfl⟩, ⟨rfl, rfl⟩, rfl⟩, rfl⟩, rfl⟩, rfl⟩
    ext1
    · simp [written, fullTokens, VariableDefinition.written, Selection.setWritten,
        Directive.allWritten, Function.comp_def]
    · simp [written, depth, VariableDefinition.written, Selection.setWritten,
        Directive.allWritten])).congr fun _ _ _ => rfl

/-- A query that is only its selections. -/
def stepwiseShorthand (n : Nat) :
    Stepwise n (fun room => shorthand <$> Selection.parseSet room) fun d w =>
      d.isShorthand = true ∧ w.tokens = Selection.setTokens d.selections ∧ w.depth = d.depth :=
  ((Selection.stepwiseSet n).map shorthand).mono (by
    rintro _ _ ⟨selections, rfl, -, rfl⟩
    exact ⟨rfl, rfl, by simp [depth, shorthand, Selection.setWritten]⟩)

end OperationDefinition

namespace FragmentDefinition

def written (d : FragmentDefinition) : Written where
  tokens := d.tokens
  depth := d.depth

/-- What stands behind the keyword. -/
def stepwise (n : Nat) (t : TokenKind) :
    Stepwise n (fun room ts => parse room (t :: ts)) fun d w =>
      .token (.name "fragment") ++ w = d.written :=
  (Stepwise.lookIf (· = some (.name "on")) (Stepwise.refuse .expectedFragmentName)
    ((Stepwise.name.bind fun name => (Stepwise.expectKeyword "on").bind fun _ =>
      Stepwise.name.bind fun condition => (Directive.stepwiseAll .dynamic n).bind fun directives =>
      (Selection.stepwiseSet n).bind fun selections =>
      .pure (⟨name, condition, directives, selections⟩ : FragmentDefinition)).mono (by
      rintro _ _ ⟨name, _, _, rfl, ⟨_, _, _, rfl, ⟨condition, _, _, rfl, ⟨directives, _, _, rfl,
        ⟨selections, _, _, ⟨-, rfl⟩, ⟨rfl, rfl⟩, rfl⟩, rfl⟩, rfl⟩, rfl⟩, rfl⟩
      ext1
      · simp [written, tokens, Selection.setWritten, Directive.allWritten]
      · simp [written, depth, Selection.setWritten, Directive.allWritten]))).congr
    fun room ts _ => parse_run room t ts

end FragmentDefinition

end GraphQLSyntax
