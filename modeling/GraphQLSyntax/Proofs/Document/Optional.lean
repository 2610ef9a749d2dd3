import GraphQLSyntax.Definition

/-!
# Optional tokens

In three places a token can be written or left out and makes no difference: the `&` right behind
`implements`, the `|` right behind the equals sign of a union or the `on` of a directive definition,
and the keyword of a query that has nothing but selections. A definition has at most one such place.

* `Definition.tokensWith_false`: the shortest spelling of a definition has none of these tokens.
-/

namespace GraphQLSyntax

/-- A separator that may stand in front of the first name. -/
def leading (optional : Bool) (separator : Punctuator) : List TokenKind :=
  if optional then [punct separator] else []

namespace TypeBody

def interfaceTokensWith (optional : Bool) (names : List String) : List TokenKind :=
  if names.isEmpty then [] else
    .name "implements" :: leading optional .amp ++ separated .amp names

def memberTokensWith (optional : Bool) (names : List String) : List TokenKind :=
  if names.isEmpty then [] else punct .equals :: leading optional .pipe ++ separated .pipe names

/-- The tokens behind the directives. -/
def tokensWith (optional : Bool) : TypeBody → List TokenKind
  | union members => memberTokensWith optional members
  | body => body.tokens

end TypeBody

namespace TypeDefinition

def tokensWith (optional : Bool) (d : TypeDefinition) : List TokenKind :=
  d.toHeading.tokens ++ .name d.body.kind.keyword :: .name d.name ::
    TypeBody.interfaceTokensWith optional d.body.interfaces ++ Directive.allTokens d.directives ++
    d.body.tokensWith optional

end TypeDefinition

namespace DirectiveDefinition

def tokensWith (optional : Bool) (d : DirectiveDefinition) : List TokenKind :=
  descriptionTokens d.description ++ .name "directive" :: punct .atSign :: .name d.name ::
    InputValueDefinition.argumentTokens d.arguments ++
    (if d.repeatable then [.name "repeatable"] else []) ++
    .name "on" :: leading optional .pipe ++ separated .pipe (d.locations.map DirectiveLocation.name)

end DirectiveDefinition

namespace Definition

/-- The tokens of a definition with its optional token or without it. -/
def tokensWith (optional : Bool) : Definition → List TokenKind
  | operation d => if optional then d.fullTokens else d.tokens false
  | fragment d => d.tokens
  | schema d => d.tokens
  | type d => d.tokensWith optional
  | directive d => d.tokensWith optional

theorem tokensWith_false (d : Definition) : d.tokensWith false = d.tokens false := by
  cases d with
  | type d =>
    obtain ⟨_, _, _, body⟩ := d
    cases body <;> rfl
  | directive d =>
    simp [tokensWith, tokens, DirectiveDefinition.tokensWith, DirectiveDefinition.tokens, leading]
  | _ => rfl

end Definition

end GraphQLSyntax
