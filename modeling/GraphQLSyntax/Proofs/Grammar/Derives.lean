import GraphQLSyntax.Definition
import GraphQLSyntax.Proofs.Grammar.Production

/-!
# The grammar

What token sequences derive, one production for each part of a document. `Derives` of a part
relates tokens, what the first of them derive, and the tokens behind those; a depth bounds the
nested levels of selections, of list and object values, and of list types.

The productions are those of the language. Lists between delimiters are not empty, except for those
of values. A value of constant mode is no reference to a variable, so defaults, and directives of
variables and of the type system, are constant by their type.
-/

namespace GraphQLSyntax

open Production

/-! ## Types -/

mutual

/-- A type without the bang that may follow. -/
inductive TypeRef.DerivesNullable : Production TypeRef
  | named {depth text ts} : DerivesNullable depth (.name text :: ts) (.named text) ts
  | list {depth ts type rest} (inner : TypeRef.Derives depth ts type (punct .bracketClose :: rest)) :
      DerivesNullable (depth + 1) (punct .bracketOpen :: ts) (.list type) rest

inductive TypeRef.Derives : Production TypeRef
  | nullable {depth ts type rest} (inner : TypeRef.DerivesNullable depth ts type rest)
      (next : rest.head? ≠ some (punct .bang)) : Derives depth ts type rest
  | nonNull {depth ts type rest}
      (inner : TypeRef.DerivesNullable depth ts type (punct .bang :: rest)) :
      Derives depth ts (.nonNull type) rest

end

/-! ## Values -/

/-- An entry of an object. -/
inductive Value.DerivesEntry {m : ValueMode} (value : Production (Value m)) :
    Production (String × Value m)
  | intro {depth key ts x rest} (inner : value depth ts x rest) :
      DerivesEntry value depth (.name key :: punct .colon :: ts) (key, x) rest

inductive Value.Derives (m : ValueMode) : Production (Value m)
  | varRef {depth name ts} (allowed : m = .dynamic) :
      Derives m depth (punct .dollar :: .name name :: ts) (.varRef name allowed) ts
  | true {depth ts} : Derives m depth (.name "true" :: ts) (.boolean true) ts
  | false {depth ts} : Derives m depth (.name "false" :: ts) (.boolean false) ts
  | null {depth ts} : Derives m depth (.name "null" :: ts) .null ts
  | enum {depth name ts} (unreserved : name ≠ "true" ∧ name ≠ "false" ∧ name ≠ "null") :
      Derives m depth (.name name :: ts) (.enum name) ts
  | int {depth value ts} : Derives m depth (.int value :: ts) (.int value) ts
  | float {depth value ts} : Derives m depth (.float value :: ts) (.float value) ts
  | string {depth value ts} : Derives m depth (.string value :: ts) (.string value) ts
  | list {depth ts items rest}
      (inner : Items .bracketClose (Value.Derives m) depth ts items rest) :
      Derives m (depth + 1) (punct .bracketOpen :: ts) (.list items) rest
  /-- A repeated key keeps its place and takes the last value. -/
  | object {depth ts pairs rest}
      (inner : Items .braceClose (Value.DerivesEntry (Value.Derives m)) depth ts pairs rest) :
      Derives m (depth + 1) (punct .braceOpen :: ts) (.ofPairs pairs) rest

/-! ## Arguments and directives -/

inductive Argument.Derives (m : ValueMode) : Production (Argument m)
  | intro {depth name ts value rest} (inner : Value.Derives m depth ts value rest) :
      Derives m depth (.name name :: punct .colon :: ts) ⟨name, value⟩ rest

/-- A directive behind its sign. -/
inductive Directive.Derives (m : ValueMode) : Production (Directive m)
  | intro {depth name ts arguments rest}
      (inner : OptionalList .parenOpen .parenClose (Argument.Derives m) depth ts arguments rest) :
      Derives m depth (.name name :: ts) ⟨name, arguments⟩ rest

/-- Directives for as long as a sign comes next. -/
abbrev Directive.AllDerive (m : ValueMode) : Production (List (Directive m)) :=
  Each .atSign (Directive.Derives m)

/-! ## Selections -/

/-- The alias and the name of a field. -/
inductive Selection.DerivesNames : Production (Option String × String)
  | plain {depth name ts} (next : ts.head? ≠ some (punct .colon)) :
      DerivesNames depth (.name name :: ts) (none, name) ts
  | aliased {depth first name ts} :
      DerivesNames depth (.name first :: punct .colon :: .name name :: ts) (some first, name) ts

/-- Selections in braces. -/
inductive Selection.DerivesSet (item : Production Selection) : Production (List Selection)
  | intro {depth ts selections rest} (items : Items .braceClose item depth ts selections rest)
      (nonempty : selections ≠ []) :
      DerivesSet item (depth + 1) (punct .braceOpen :: ts) selections rest

/-- The selections of a field, none without a brace. -/
inductive Selection.DerivesOwn (item : Production Selection) : Production (List Selection)
  | present {depth ts selections rest}
      (set : DerivesSet item depth (punct .braceOpen :: ts) selections rest) :
      DerivesOwn item depth (punct .braceOpen :: ts) selections rest
  | absent {depth ts} (next : ts.head? ≠ some (punct .braceOpen)) : DerivesOwn item depth ts [] ts

inductive Selection.Derives : Production Selection
  | field {depth ts names ts₁ arguments ts₂ directives ts₃ selections rest}
      (hnames : Selection.DerivesNames depth ts names ts₁)
      (harguments : OptionalList .parenOpen .parenClose (Argument.Derives .dynamic) depth ts₁
        arguments ts₂)
      (hdirectives : Directive.AllDerive .dynamic depth ts₂ directives ts₃)
      (hselections : Selection.DerivesOwn Selection.Derives depth ts₃ selections rest) :
      Derives depth ts (.field names.1 names.2 arguments directives selections) rest
  | spread {depth name ts directives rest} (notOn : name ≠ "on")
      (hdirectives : Directive.AllDerive .dynamic depth ts directives rest) :
      Derives depth (punct .spread :: .name name :: ts) (.spread name directives) rest
  | inline {depth condition ts directives ts₁ selections rest}
      (hdirectives : Directive.AllDerive .dynamic depth ts directives ts₁)
      (hselections : Selection.DerivesSet Selection.Derives depth ts₁ selections rest) :
      Derives depth (punct .spread :: .name "on" :: .name condition :: ts)
        (.inline condition directives selections) rest

/-! ## Operations and fragments -/

inductive VariableDefinition.Derives : Production VariableDefinition
  | intro {depth name ts type ts₁ default ts₂ directives rest}
      (htype : TypeRef.Derives depth ts type ts₁)
      (hdefault : Behind (punct .equals) (Value.Derives .const) depth ts₁ default ts₂)
      (hdirectives : Directive.AllDerive .const depth ts₂ directives rest) :
      Derives depth (punct .dollar :: .name name :: punct .colon :: ts)
        { name, type, default, directives } rest

/-- An operation behind its keyword. -/
inductive OperationDefinition.Derives (operation : OperationType) : Production OperationDefinition
  | intro {depth ts name ts₁ variableDefinitions ts₂ directives ts₃ selections rest}
      (hname : OptionalName depth ts name ts₁)
      (hvariableDefinitions : OptionalList .parenOpen .parenClose VariableDefinition.Derives depth ts₁
        variableDefinitions ts₂)
      (hdirectives : Directive.AllDerive .dynamic depth ts₂ directives ts₃)
      (hselections : Selection.DerivesSet Selection.Derives depth ts₃ selections rest) :
      Derives operation depth ts
        { name, operation, variableDefinitions, directives, selections } rest

/-- A fragment behind its keyword. -/
inductive FragmentDefinition.Derives : Production FragmentDefinition
  | intro {depth name condition ts directives ts₁ selections rest} (notOn : name ≠ "on")
      (hdirectives : Directive.AllDerive .dynamic depth ts directives ts₁)
      (hselections : Selection.DerivesSet Selection.Derives depth ts₁ selections rest) :
      Derives depth (.name name :: .name "on" :: .name condition :: ts)
        { name, condition, directives, selections } rest

/-! ## The type system -/

inductive InputValueDefinition.Derives : Production InputValueDefinition
  | intro {depth ts description name ts₁ type ts₂ default ts₃ directives rest}
      (hdescription : Description depth ts description (.name name :: punct .colon :: ts₁))
      (htype : TypeRef.Derives depth ts₁ type ts₂)
      (hdefault : Behind (punct .equals) (Value.Derives .const) depth ts₂ default ts₃)
      (hdirectives : Directive.AllDerive .const depth ts₃ directives rest) :
      Derives depth ts { description, name, type, default, directives } rest

/-- Definitions of arguments, none without parentheses. -/
abbrev InputValueDefinition.ArgumentsDerive : Production (List InputValueDefinition) :=
  OptionalList .parenOpen .parenClose InputValueDefinition.Derives

inductive FieldDefinition.Derives : Production FieldDefinition
  | intro {depth ts description name ts₁ arguments ts₂ type ts₃ directives rest}
      (hdescription : Description depth ts description (.name name :: ts₁))
      (harguments : InputValueDefinition.ArgumentsDerive depth ts₁ arguments (punct .colon :: ts₂))
      (htype : TypeRef.Derives depth ts₂ type ts₃)
      (hdirectives : Directive.AllDerive .const depth ts₃ directives rest) :
      Derives depth ts { description, name, arguments, type, directives } rest

inductive EnumValueDefinition.Derives : Production EnumValueDefinition
  | intro {depth ts description name ts₁ directives rest}
      (hdescription : Description depth ts description (.name name :: ts₁))
      (hdirectives : Directive.AllDerive .const depth ts₁ directives rest) :
      Derives depth ts { description, name, directives } rest

/-- The type at which a type of operation starts. -/
inductive SchemaDefinition.DerivesEntry : Production (OperationType × String)
  | intro {depth name ts} (operation : OperationType) :
      DerivesEntry depth (.name operation.name :: punct .colon :: .name name :: ts)
        (operation, name) ts

/-- A schema behind its keyword. It has a directive or an entry, and a repeated type of operation
keeps its place and takes the last name. -/
inductive SchemaDefinition.Derives (heading : Heading) : Production SchemaDefinition
  | intro {depth ts directives ts₁ entries rest}
      (hdirectives : Directive.AllDerive .const depth ts directives ts₁)
      (hentries : OptionalList .braceOpen .braceClose SchemaDefinition.DerivesEntry depth ts₁ entries
        rest)
      (nonempty : directives ≠ [] ∨ entries ≠ []) :
      Derives heading depth ts
        { heading with directives, operationTypes := Entries.ofPairs entries } rest

/-- The interfaces of a type, none without the keyword. -/
inductive TypeBody.DerivesInterfaces : Production (List String)
  | present {depth ts names rest} (inner : Separated .amp Name depth ts names rest) :
      DerivesInterfaces depth (.name "implements" :: ts) names rest
  | absent {depth ts} (next : ts.head? ≠ some (.name "implements")) :
      DerivesInterfaces depth ts [] ts

/-- The members of a union, none without the equals sign. -/
inductive TypeBody.DerivesMembers : Production (List String)
  | present {depth ts names rest} (inner : Separated .pipe Name depth ts names rest) :
      DerivesMembers depth (punct .equals :: ts) names rest
  | absent {depth ts} (next : ts.head? ≠ some (punct .equals)) : DerivesMembers depth ts [] ts

/-- A list in braces, none without them. -/
abbrev TypeBody.BlockDerives {α : Type} (item : Production α) : Production (List α) :=
  OptionalList .braceOpen .braceClose item

/-- What stands behind the name of a type. -/
inductive TypeBody.Derives : TypeKind → Production (List (Directive .const) × TypeBody)
  | scalar {depth ts directives rest}
      (hdirectives : Directive.AllDerive .const depth ts directives rest) :
      Derives .scalar depth ts (directives, .scalar) rest
  | object {depth ts interfaces ts₁ directives ts₂ fields rest}
      (hinterfaces : TypeBody.DerivesInterfaces depth ts interfaces ts₁)
      (hdirectives : Directive.AllDerive .const depth ts₁ directives ts₂)
      (hfields : TypeBody.BlockDerives FieldDefinition.Derives depth ts₂ fields rest) :
      Derives .object depth ts (directives, .object interfaces fields) rest
  | interface {depth ts interfaces ts₁ directives ts₂ fields rest}
      (hinterfaces : TypeBody.DerivesInterfaces depth ts interfaces ts₁)
      (hdirectives : Directive.AllDerive .const depth ts₁ directives ts₂)
      (hfields : TypeBody.BlockDerives FieldDefinition.Derives depth ts₂ fields rest) :
      Derives .interface depth ts (directives, .interface interfaces fields) rest
  | union {depth ts directives ts₁ members rest}
      (hdirectives : Directive.AllDerive .const depth ts directives ts₁)
      (hmembers : TypeBody.DerivesMembers depth ts₁ members rest) :
      Derives .union depth ts (directives, .union members) rest
  | enum {depth ts directives ts₁ values rest}
      (hdirectives : Directive.AllDerive .const depth ts directives ts₁)
      (hvalues : TypeBody.BlockDerives EnumValueDefinition.Derives depth ts₁ values rest) :
      Derives .enum depth ts (directives, .enum values) rest
  | input {depth ts directives ts₁ fields rest}
      (hdirectives : Directive.AllDerive .const depth ts directives ts₁)
      (hfields : TypeBody.BlockDerives InputValueDefinition.Derives depth ts₁ fields rest) :
      Derives .input depth ts (directives, .input fields) rest

/-- An extension of an interface, an enum or an input adds something. -/
def TypeDefinition.AddsIfExtension (d : TypeDefinition) : Prop :=
  d.isExtension = true →
    match d.body with
    | .interface interfaces fields => interfaces ≠ [] ∨ d.directives ≠ [] ∨ fields ≠ []
    | .enum values => d.directives ≠ [] ∨ values ≠ []
    | .input fields => d.directives ≠ [] ∨ fields ≠ []
    | _ => True

/-- A type behind its keyword. -/
inductive TypeDefinition.Derives (heading : Heading) (kind : TypeKind) : Production TypeDefinition
  | intro {depth name ts directives body rest}
      (inner : TypeBody.Derives kind depth ts (directives, body) rest)
      (adds : TypeDefinition.AddsIfExtension { heading with name, directives, body }) :
      Derives heading kind depth (.name name :: ts) { heading with name, directives, body } rest

/-- The name of a place where a directive may stand. -/
inductive DirectiveDefinition.DerivesLocation : Production DirectiveLocation
  | intro {depth ts} (place : DirectiveLocation) :
      DerivesLocation depth (.name place.name :: ts) place ts

/-- A directive behind its keyword. -/
inductive DirectiveDefinition.Derives (description : Option String) :
    Production DirectiveDefinition
  | intro {depth name ts arguments ts₁ repeatable ts₂ locations rest}
      (harguments : InputValueDefinition.ArgumentsDerive depth ts arguments ts₁)
      (hrepeatable : Flag (.name "repeatable") depth ts₁ repeatable (.name "on" :: ts₂))
      (hlocations : Separated .pipe DirectiveDefinition.DerivesLocation depth ts₂ locations rest) :
      Derives description depth (punct .atSign :: .name name :: ts)
        { description, name, arguments, repeatable, locations } rest

/-! ## Documents -/

/-- What stands in front of the keyword of a definition. -/
inductive Heading.Derives : Production Heading
  | intro {depth ts description ts₁ isExtension rest}
      (hdescription : Description depth ts description ts₁)
      (hisExtension : Flag (.name "extend") depth ts₁ isExtension rest) :
      Derives depth ts { description, isExtension } rest

/-- A definition from its keyword on. Operations and fragments have neither a description nor the
word `extend` in front of them, and directives do not have the latter. -/
inductive Definition.DerivesKeyword : Heading → Production Definition
  | operation {depth ts d rest} (operation : OperationType)
      (inner : OperationDefinition.Derives operation depth ts d rest) :
      DerivesKeyword ⟨none, false⟩ depth (.name operation.name :: ts) (.operation d) rest
  | fragment {depth ts d rest} (inner : FragmentDefinition.Derives depth ts d rest) :
      DerivesKeyword ⟨none, false⟩ depth (.name "fragment" :: ts) (.fragment d) rest
  | schema {heading depth ts d rest} (inner : SchemaDefinition.Derives heading depth ts d rest) :
      DerivesKeyword heading depth (.name "schema" :: ts) (.schema d) rest
  | directive {description depth ts d rest}
      (inner : DirectiveDefinition.Derives description depth ts d rest) :
      DerivesKeyword ⟨description, false⟩ depth (.name "directive" :: ts) (.directive d) rest
  | type {heading depth ts d rest} (kind : TypeKind)
      (inner : TypeDefinition.Derives heading kind depth ts d rest) :
      DerivesKeyword heading depth (.name kind.keyword :: ts) (.type d) rest

inductive Definition.Derives : Production Definition
  /-- A query that is only its selections. -/
  | shorthand {depth ts selections rest}
      (inner : Selection.DerivesSet Selection.Derives depth (punct .braceOpen :: ts) selections
        rest) :
      Derives depth (punct .braceOpen :: ts) (.operation (.shorthand selections)) rest
  | keyword {depth ts heading ts₁ d rest} (next : ts.head? ≠ some (punct .braceOpen))
      (hheading : Heading.Derives depth ts heading ts₁)
      (inner : Definition.DerivesKeyword heading depth ts₁ d rest) :
      Derives depth ts d rest

/-- Definitions up to the end. -/
inductive Definition.AllDerive : Production (List Definition)
  | nil {depth} : AllDerive depth [] [] []
  | cons {depth ts d mid ds} (first : Definition.Derives depth ts d mid)
      (others : AllDerive depth mid ds []) : AllDerive depth ts (d :: ds) []

end GraphQLSyntax
