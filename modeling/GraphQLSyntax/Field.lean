import GraphQLSyntax.Directive
import GraphQLSyntax.TypeRef

/-!
# Definitions of fields

The definition of an argument or of a field of an input type, with an optional default value, and
the definition of a field of an object type or an interface, with its arguments.
-/

namespace GraphQLSyntax

/-! ## Inputs -/

structure InputValueDefinition where
  description : Option String
  name : String
  type : TypeRef
  default : Option (Value .const)
  directives : List (Directive .const)

namespace InputValueDefinition

def parse (room : Nat) : Parser InputValueDefinition := do
  let description ← Parser.string?
  let name ← Parser.name
  Parser.expect .colon
  let type ← TypeRef.parse room
  let default ← Value.parseDefault room
  let directives ← Directive.parseAll .const room
  return { description, name, type, default, directives }

/-- Definitions of arguments in parentheses, none without them. -/
def parseArguments (room : Nat) : Parser (List InputValueDefinition) :=
  Parser.optionalList .argumentDefinitions .parenOpen .parenClose (parse room)

def tokens (d : InputValueDefinition) : List TokenKind :=
  descriptionTokens d.description ++ .name d.name :: punct .colon :: d.type.tokens ++
    Value.defaultTokens d.default ++ Directive.allTokens d.directives

def argumentTokens (arguments : List InputValueDefinition) : List TokenKind :=
  enclosed .parenOpen .parenClose (arguments.map tokens)

def sexp (d : InputValueDefinition) : Sexp :=
  .node "input-value" [.stringOrAbsent d.description, .atom d.name, d.type.sexp,
    Value.defaultSexp d.default, Directive.allSexp d.directives]

def equiv (a b : InputValueDefinition) : Bool :=
  a.description == b.description && a.name == b.name && a.type == b.type &&
    Value.equivDefault a.default b.default && Directive.allEquiv a.directives b.directives

end InputValueDefinition

/-! ## Fields -/

structure FieldDefinition where
  description : Option String
  name : String
  arguments : List InputValueDefinition
  type : TypeRef
  directives : List (Directive .const)

namespace FieldDefinition

def parse (room : Nat) : Parser FieldDefinition := do
  let description ← Parser.string?
  let name ← Parser.name
  let arguments ← InputValueDefinition.parseArguments room
  Parser.expect .colon
  let type ← TypeRef.parse room
  let directives ← Directive.parseAll .const room
  return { description, name, arguments, type, directives }

def tokens (d : FieldDefinition) : List TokenKind :=
  descriptionTokens d.description ++ .name d.name ::
    InputValueDefinition.argumentTokens d.arguments ++ punct .colon :: d.type.tokens ++
    Directive.allTokens d.directives

def sexp (d : FieldDefinition) : Sexp :=
  .node "field-def" [.stringOrAbsent d.description, .atom d.name,
    .list (d.arguments.map InputValueDefinition.sexp), d.type.sexp,
    Directive.allSexp d.directives]

def equiv (a b : FieldDefinition) : Bool :=
  a.description == b.description && a.name == b.name &&
    a.arguments.isEqv b.arguments InputValueDefinition.equiv && a.type == b.type &&
    Directive.allEquiv a.directives b.directives

end FieldDefinition

end GraphQLSyntax
