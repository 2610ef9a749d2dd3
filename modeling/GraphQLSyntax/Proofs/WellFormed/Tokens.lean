import GraphQLSyntax.Definition

/-!
# Forms of token sequences

The functions that write a tree as tokens recurse over its lists by themselves, and put the optional
parts of a definition together by its kind. Here are the forms that proofs about all of them need.

* `Value.itemTokens_eq` and its likes: the tokens of a list are those of its items in a row.
* `Definition.tokens_true`: a definition is a heading, a keyword and the rest.
* `Definition.tokens_eq`: unless it is a query that is written as its selections alone.
-/

namespace GraphQLSyntax

/-- Of items with a separator between each two, all but the first stand behind a separator. -/
theorem intersperse_cons {α : Type} (separator x : α) (xs : List α) :
    (x :: xs).intersperse separator = x :: xs.flatMap fun y => [separator, y] := by
  induction xs generalizing x with
  | nil => rfl
  | cons y ys ih =>
    rw [List.intersperse_cons_cons, ih]
    rfl

namespace Value

variable {m : ValueMode}

theorem itemTokens_eq (items : List (Value m)) : itemTokens items = items.flatMap tokens := by
  induction items with
  | nil => rfl
  | cons value items ih => rw [itemTokens, ih, List.flatMap_cons]

/-- The tokens of an entry of an object. -/
def tokensOfEntry (entry : String × Value m) : List TokenKind :=
  .name entry.1 :: punct .colon :: entry.2.tokens

theorem entryTokens_eq (entries : List (String × Value m)) :
    entryTokens entries = entries.flatMap tokensOfEntry := by
  induction entries with
  | nil => rfl
  | cons entry entries ih => rw [entryTokens, ih, List.flatMap_cons]; rfl

end Value

namespace Selection

theorem listTokens_eq (selections : List Selection) :
    listTokens selections = selections.flatMap tokens := by
  induction selections with
  | nil => rfl
  | cons s selections ih => rw [listTokens, ih, List.flatMap_cons]

/-- The alias and the name of a field. -/
def nameTokens : Option String × String → List TokenKind
  | (none, name) => [.name name]
  | (some first, name) => [.name first, punct .colon, .name name]

theorem tokens_field (aliasName : Option String) (name : String)
    (arguments : List (Argument .dynamic)) (directives : List (Directive .dynamic))
    (selections : List Selection) :
    (field aliasName name arguments directives selections).tokens =
      nameTokens (aliasName, name) ++ (Argument.allTokens arguments ++
        (Directive.allTokens directives ++
          if selections.isEmpty then [] else setTokens selections)) := by
  cases aliasName <;> simp [tokens, nameTokens, setTokens]

end Selection

namespace Definition

/-- The heading of a definition, an empty one if the definition is executable. -/
def heading : Definition → Heading
  | operation _ | fragment _ => ⟨none, false⟩
  | schema d => d.toHeading
  | type d => d.toHeading
  | directive d => ⟨d.description, false⟩

/-- The word that begins a definition. -/
def keyword : Definition → DefinitionKeyword
  | operation d => .operation d.operation
  | fragment _ => .fragment
  | schema _ => .schema
  | type d => .type d.body.kind
  | directive _ => .directive

/-- What stands behind the keyword. -/
def tokensBehindKeyword : Definition → List TokenKind
  | operation d => d.fullTokens.tail
  | fragment d => d.tokens.tail
  | schema d => Directive.allTokens d.directives ++
      enclosed .braceOpen .braceClose (d.operationTypes.map SchemaDefinition.entryTokens)
  | type d => .name d.name :: (TypeBody.interfaceTokens d.body.interfaces ++
      (Directive.allTokens d.directives ++ d.body.tokens))
  | directive d => punct .atSign :: .name d.name ::
      (InputValueDefinition.argumentTokens d.arguments ++
        ((if d.repeatable then [.name "repeatable"] else []) ++
          .name "on" :: separated .pipe (d.locations.map DirectiveLocation.name)))

theorem tokens_true (d : Definition) :
    d.tokens true = d.heading.tokens ++ .name d.keyword.name :: d.tokensBehindKeyword := by
  cases d with
  | operation d => simp [tokens, OperationDefinition.tokens, OperationDefinition.fullTokens,
      heading, Heading.tokens, descriptionTokens, keyword, DefinitionKeyword.name,
      tokensBehindKeyword]
  | fragment d => rfl
  | schema d => simp [tokens, SchemaDefinition.tokens, heading, keyword, DefinitionKeyword.name,
      tokensBehindKeyword]
  | type d => simp [tokens, TypeDefinition.tokens, heading, keyword, DefinitionKeyword.name,
      tokensBehindKeyword]
  | directive d => simp [tokens, DirectiveDefinition.tokens, heading, Heading.tokens, keyword,
      DefinitionKeyword.name, tokensBehindKeyword]

/-- Only a query that is nothing but its selections is written without its keyword, and not behind
a definition that could take the brace. -/
theorem tokens_eq (d : Definition) (behindOpenBlock : Bool) :
    d.tokens behindOpenBlock = d.tokens true ∨
      behindOpenBlock = false ∧ ∃ selections, d = operation (.shorthand selections) ∧
        d.tokens behindOpenBlock = Selection.setTokens selections := by
  cases behindOpenBlock with
  | true => exact .inl rfl
  | false =>
    cases d with
    | operation d =>
      by_cases h : d.isShorthand
      · refine .inr ⟨rfl, d.selections, ?_, by simp [tokens, OperationDefinition.tokens, h]⟩
        simp only [OperationDefinition.isShorthand, Bool.and_eq_true, beq_iff_eq,
          Option.isNone_iff_eq_none, List.isEmpty_iff] at h
        obtain ⟨⟨⟨hquery, hname⟩, hvariables⟩, hdirectives⟩ := h
        cases d
        simp only at hquery hname hvariables hdirectives
        subst hquery hname hvariables hdirectives
        rfl
      · exact .inl (by simp [tokens, OperationDefinition.tokens, h])
    | _ => exact .inl rfl

end Definition

end GraphQLSyntax
