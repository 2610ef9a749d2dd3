import GraphQLSyntax.Field
import GraphQLSyntax.Keyword

/-!
# Definitions of the type system

A definition of the type system can begin with a description, and with the word `extend` if it adds
to a definition that stands elsewhere. Operations and fragments have neither.

* A type is of one of six kinds, which differ in what they list: the fields of objects, interfaces
  and inputs, the members of unions, the values of enums. Objects and interfaces can implement
  interfaces. An extension of an interface, an enum or an input must add something; those of other
  types need not.
* A schema names the type at which each type of operation starts. A repeated operation type keeps
  its place and takes the last name.
* A directive is defined with its arguments, the places where it may stand, and whether it may stand
  there more than once. It cannot be extended.
-/

namespace GraphQLSyntax

/-! ## Headings -/

/-- What stands in front of the keyword of a definition. -/
structure Heading where
  description : Option String
  isExtension : Bool
deriving DecidableEq, Repr

namespace Heading

def parse : Parser Heading := do
  let description ← Parser.string?
  let isExtension ← Parser.eatKeyword "extend"
  return { description, isExtension }

/-- Refuses the keyword of an executable definition that has a heading. -/
def refuseFor (h : Heading) (keyword : String) : Parser Unit := do
  if h.description.isSome then
    Parser.fail (.describedExecutable keyword)
  if h.isExtension then
    Parser.fail (.extendedExecutable keyword)

def tokens (h : Heading) : List TokenKind :=
  descriptionTokens h.description ++ if h.isExtension then [.name "extend"] else []

def sexps (h : Heading) : List Sexp :=
  [.stringOrAbsent h.description, .boolean h.isExtension]

end Heading

/-! ## Types -/

structure EnumValueDefinition where
  description : Option String
  name : String
  directives : List (Directive .const)

/-- What a type lists, by the kind of the type. -/
inductive TypeBody
  | scalar
  | object (interfaces : List String) (fields : List FieldDefinition)
  | interface (interfaces : List String) (fields : List FieldDefinition)
  | union (members : List String)
  | enum (values : List EnumValueDefinition)
  | input (fields : List InputValueDefinition)

structure TypeDefinition extends Heading where
  name : String
  directives : List (Directive .const)
  body : TypeBody

namespace EnumValueDefinition

def parse (room : Nat) : Parser EnumValueDefinition := do
  let description ← Parser.string?
  let name ← Parser.name
  let directives ← Directive.parseAll .const room
  return { description, name, directives }

def tokens (d : EnumValueDefinition) : List TokenKind :=
  descriptionTokens d.description ++ .name d.name :: Directive.allTokens d.directives

def sexp (d : EnumValueDefinition) : Sexp :=
  .node "enum-value-def" [.stringOrAbsent d.description, .atom d.name,
    Directive.allSexp d.directives]

def equiv (a b : EnumValueDefinition) : Bool :=
  a.description == b.description && a.name == b.name &&
    Directive.allEquiv a.directives b.directives

end EnumValueDefinition

namespace TypeBody

def kind : TypeBody → TypeKind
  | scalar => .scalar
  | object _ _ => .object
  | interface _ _ => .interface
  | union _ => .union
  | enum _ => .enum
  | input _ => .input

def interfaces : TypeBody → List String
  | object interfaces _ | interface interfaces _ => interfaces
  | _ => []

/-! ### Reading -/

/-- The interfaces of an object or an interface, none without the keyword. -/
def parseInterfaces : Parser (List String) := do
  if ← Parser.eatKeyword "implements" then
    Parser.separated .amp Parser.name
  else
    return []

/-- The members of a union, none without the equals sign. -/
def parseMembers : Parser (List String) := do
  if ← Parser.eatPunctuator .equals then
    Parser.separated .pipe Parser.name
  else
    return []

/-- A list in braces, none without them. -/
def parseBlock {α : Type} (list : NonemptyList) (item : Parser α) : Parser (List α) :=
  Parser.optionalList list .braceOpen .braceClose item

/-- The body of a type and the directives in front of it. Interfaces stand in front of the
directives, all else behind them. -/
def parse (room : Nat) (kind : TypeKind) : Parser (List (Directive .const) × TypeBody) := do
  let directives := Directive.parseAll .const room
  match kind with
  | .scalar => return (← directives, scalar)
  | .object =>
    let interfaces ← parseInterfaces
    return (← directives, object interfaces (← parseBlock .fields (FieldDefinition.parse room)))
  | .interface =>
    let interfaces ← parseInterfaces
    return (← directives, interface interfaces (← parseBlock .fields (FieldDefinition.parse room)))
  | .union => return (← directives, union (← parseMembers))
  | .enum => return (← directives, enum (← parseBlock .enumValues (EnumValueDefinition.parse room)))
  | .input =>
    return (← directives, input (← parseBlock .inputFields (InputValueDefinition.parse room)))

/-! ### Writing -/

def interfaceTokens (names : List String) : List TokenKind :=
  if names.isEmpty then [] else .name "implements" :: separated .amp names

def memberTokens (names : List String) : List TokenKind :=
  if names.isEmpty then [] else punct .equals :: separated .pipe names

def blockTokens (items : List (List TokenKind)) : List TokenKind :=
  enclosed .braceOpen .braceClose items

/-- The tokens behind the directives. -/
def tokens : TypeBody → List TokenKind
  | scalar => []
  | object _ fields | interface _ fields => blockTokens (fields.map FieldDefinition.tokens)
  | union members => memberTokens members
  | enum values => blockTokens (values.map EnumValueDefinition.tokens)
  | input fields => blockTokens (fields.map InputValueDefinition.tokens)

/-- The fields of the node of a type, its directives among them. -/
def sexps (directives : Sexp) : TypeBody → List Sexp
  | scalar => [directives]
  | object interfaces fields | interface interfaces fields =>
    [.atoms interfaces, directives, .list (fields.map FieldDefinition.sexp)]
  | union members => [directives, .atoms members]
  | enum values => [directives, .list (values.map EnumValueDefinition.sexp)]
  | input fields => [directives, .list (fields.map InputValueDefinition.sexp)]

/-- Whether a block in braces could stand behind the type and does not. -/
def lacksBlock : TypeBody → Bool
  | object _ fields | interface _ fields => fields.isEmpty
  | enum values => values.isEmpty
  | input fields => fields.isEmpty
  | scalar | union _ => false

def equiv : TypeBody → TypeBody → Bool
  | scalar, scalar => true
  | object is fs, object js gs | interface is fs, interface js gs =>
    is == js && fs.isEqv gs FieldDefinition.equiv
  | union ms, union ns => ms == ns
  | enum vs, enum ws => vs.isEqv ws EnumValueDefinition.equiv
  | input fs, input gs => fs.isEqv gs InputValueDefinition.equiv
  | _, _ => false

end TypeBody

namespace TypeDefinition

/-- Whether the definition extends a type without the additions that this kind must have. -/
def emptyExtension? (d : TypeDefinition) : Option ExtensionKind :=
  if d.isExtension && d.directives.isEmpty && d.body.interfaces.isEmpty && d.body.lacksBlock then
    match d.body.kind with
    | .interface => some .interface
    | .enum => some .enum
    | .input => some .input
    | _ => none
  else
    none

/-- The definition of a type, at its keyword. -/
def parse (room : Nat) (heading : Heading) (kind : TypeKind) : Parser TypeDefinition := do
  Parser.skip
  let name ← Parser.name
  let (directives, body) ← TypeBody.parse room kind
  let d : TypeDefinition := { heading with name, directives, body }
  match d.emptyExtension? with
  | some kind => Parser.fail (.emptyExtension kind name)
  | none => return d

def tokens (d : TypeDefinition) : List TokenKind :=
  d.toHeading.tokens ++ .name d.body.kind.keyword :: .name d.name ::
    TypeBody.interfaceTokens d.body.interfaces ++ Directive.allTokens d.directives ++ d.body.tokens

def sexp (d : TypeDefinition) : Sexp :=
  .node d.body.kind.keyword (d.toHeading.sexps ++ .atom d.name ::
    d.body.sexps (Directive.allSexp d.directives))

def equiv (a b : TypeDefinition) : Bool :=
  a.toHeading == b.toHeading && a.name == b.name && Directive.allEquiv a.directives b.directives &&
    a.body.equiv b.body

end TypeDefinition

/-! ## Schemas -/

structure SchemaDefinition extends Heading where
  directives : List (Directive .const)
  operationTypes : List (OperationType × String)

namespace SchemaDefinition

/-- A type of operation that must come next. -/
def parseOperationType : Parser OperationType := do
  match ← Parser.peek with
  | some (.name name) =>
    match OperationType.ofName? name with
    | some type => Parser.skip; return type
    | none => Parser.fail .unknownOperationType
  | _ => Parser.fail .expectedOperationType

def parseEntry : Parser (OperationType × String) := do
  let operation ← parseOperationType
  Parser.expect .colon
  return (operation, ← Parser.name)

/-- The definition of a schema, at its keyword. It must have directives or entries. -/
def parse (room : Nat) (heading : Heading) : Parser SchemaDefinition := do
  Parser.skip
  let directives ← Directive.parseAll .const room
  let entries ← Parser.optionalList .operationTypes .braceOpen .braceClose parseEntry
  if directives.isEmpty && entries.isEmpty then
    Parser.fail .expectedSchemaBody
  return { heading with directives, operationTypes := Entries.ofPairs entries }

def entryTokens (entry : OperationType × String) : List TokenKind :=
  [.name entry.1.name, punct .colon, .name entry.2]

def tokens (d : SchemaDefinition) : List TokenKind :=
  d.toHeading.tokens ++ .name "schema" :: Directive.allTokens d.directives ++
    enclosed .braceOpen .braceClose (d.operationTypes.map entryTokens)

def sexp (d : SchemaDefinition) : Sexp :=
  .node "schema" (d.toHeading.sexps ++ [Directive.allSexp d.directives,
    .list (d.operationTypes.map fun entry => .list [.operationType entry.1, .atom entry.2])])

def equiv (a b : SchemaDefinition) : Bool :=
  a.toHeading == b.toHeading && Directive.allEquiv a.directives b.directives &&
    Entries.sameEntries (· == ·) a.operationTypes b.operationTypes

end SchemaDefinition

/-! ## Directives -/

structure DirectiveDefinition where
  description : Option String
  name : String
  arguments : List InputValueDefinition
  repeatable : Bool
  locations : List DirectiveLocation

namespace DirectiveDefinition

/-- A location that must come next. -/
def parseLocation : Parser DirectiveLocation := do
  match ← Parser.peek with
  | some (.name name) =>
    match DirectiveLocation.ofName? name with
    | some location => Parser.skip; return location
    | none => Parser.fail .unknownLocation
  | _ => Parser.fail .expectedLocation

/-- The definition of a directive, at its keyword. -/
def parse (room : Nat) (description : Option String) : Parser DirectiveDefinition := do
  Parser.skip
  Parser.expect .atSign
  let name ← Parser.name
  let arguments ← InputValueDefinition.parseArguments room
  let repeatable ← Parser.eatKeyword "repeatable"
  Parser.expectKeyword "on"
  let locations ← Parser.separated .pipe parseLocation
  return { description, name, arguments, repeatable, locations }

def tokens (d : DirectiveDefinition) : List TokenKind :=
  descriptionTokens d.description ++ .name "directive" :: punct .atSign :: .name d.name ::
    InputValueDefinition.argumentTokens d.arguments ++
    (if d.repeatable then [.name "repeatable"] else []) ++
    .name "on" :: separated .pipe (d.locations.map DirectiveLocation.name)

def sexp (d : DirectiveDefinition) : Sexp :=
  .node "directive-def" [.stringOrAbsent d.description, .atom d.name,
    .list (d.arguments.map InputValueDefinition.sexp), .boolean d.repeatable,
    .atoms (d.locations.map DirectiveLocation.name)]

def equiv (a b : DirectiveDefinition) : Bool :=
  a.description == b.description && a.name == b.name &&
    a.arguments.isEqv b.arguments InputValueDefinition.equiv && a.repeatable == b.repeatable &&
    a.locations == b.locations

end DirectiveDefinition

end GraphQLSyntax
