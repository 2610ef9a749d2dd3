/-!
# Keywords

Names with a meaning of their own: the three types of operations, the words that begin a
definition, and the places where a directive may stand. None of them is reserved; they mean this
only where the grammar asks for one.

* `OperationType.ofName?_name` and its likes: each is found by its name.
-/

namespace GraphQLSyntax

inductive OperationType
  | query
  | mutation
  | subscription
deriving DecidableEq, Repr

namespace OperationType

/-- The keyword of the operation type. -/
def name : OperationType → String
  | query => "query"
  | mutation => "mutation"
  | subscription => "subscription"

def all : List OperationType :=
  [query, mutation, subscription]

def ofName? (name : String) : Option OperationType :=
  all.find? (·.name = name)

theorem ofName?_name (t : OperationType) : ofName? t.name = some t := by
  cases t <;> decide

/-- An operation type is found by its own name only. -/
theorem name_of_ofName? {s : String} {t : OperationType} (h : ofName? s = some t) : t.name = s := by
  simpa using List.find?_some h

end OperationType

/-- The types that a schema can define. -/
inductive TypeKind
  | scalar
  | object
  | interface
  | union
  | enum
  | input
deriving DecidableEq, Repr

/-- The words that begin a definition. -/
inductive DefinitionKeyword
  | operation (type : OperationType)
  | fragment
  | schema
  | directive
  | type (kind : TypeKind)
deriving DecidableEq, Repr

/-- The word that begins a definition of the type. -/
def TypeKind.keyword : TypeKind → String
  | scalar => "scalar"
  | object => "type"
  | interface => "interface"
  | union => "union"
  | enum => "enum"
  | input => "input"

namespace DefinitionKeyword

def name : DefinitionKeyword → String
  | operation t => t.name
  | fragment => "fragment"
  | schema => "schema"
  | directive => "directive"
  | type kind => kind.keyword

def all : List DefinitionKeyword :=
  [operation .query, operation .mutation, operation .subscription, fragment, schema, directive,
    type .scalar, type .object, type .interface, type .union, type .enum, type .input]

def ofName? (name : String) : Option DefinitionKeyword :=
  all.find? (·.name = name)

theorem ofName?_name (k : DefinitionKeyword) : ofName? k.name = some k := by
  rcases k with (_ | _ | _) | _ | _ | _ | (_ | _ | _ | _ | _ | _) <;> decide

/-- A keyword is found by its own name only. -/
theorem name_of_ofName? {s : String} {k : DefinitionKeyword} (h : ofName? s = some k) :
    k.name = s := by
  simpa using List.find?_some h

end DefinitionKeyword

/-- The places of the grammar where a directive may stand. -/
inductive DirectiveLocation
  | query
  | mutation
  | subscription
  | field
  | fragmentDefinition
  | fragmentSpread
  | inlineFragment
  | variableDefinition
  | schema
  | scalar
  | object
  | fieldDefinition
  | argumentDefinition
  | interface
  | union
  | enum
  | enumValue
  | inputObject
  | inputFieldDefinition
deriving DecidableEq, Repr

namespace DirectiveLocation

/-- The name of the location. -/
def name : DirectiveLocation → String
  | query => "QUERY"
  | mutation => "MUTATION"
  | subscription => "SUBSCRIPTION"
  | field => "FIELD"
  | fragmentDefinition => "FRAGMENT_DEFINITION"
  | fragmentSpread => "FRAGMENT_SPREAD"
  | inlineFragment => "INLINE_FRAGMENT"
  | variableDefinition => "VARIABLE_DEFINITION"
  | schema => "SCHEMA"
  | scalar => "SCALAR"
  | object => "OBJECT"
  | fieldDefinition => "FIELD_DEFINITION"
  | argumentDefinition => "ARGUMENT_DEFINITION"
  | interface => "INTERFACE"
  | union => "UNION"
  | enum => "ENUM"
  | enumValue => "ENUM_VALUE"
  | inputObject => "INPUT_OBJECT"
  | inputFieldDefinition => "INPUT_FIELD_DEFINITION"

def all : List DirectiveLocation :=
  [query, mutation, subscription, field, fragmentDefinition, fragmentSpread, inlineFragment,
    variableDefinition, schema, scalar, object, fieldDefinition, argumentDefinition, interface,
    union, enum, enumValue, inputObject, inputFieldDefinition]

def ofName? (name : String) : Option DirectiveLocation :=
  all.find? (·.name = name)

theorem ofName?_name (l : DirectiveLocation) : ofName? l.name = some l := by
  cases l <;> decide

/-- A location is found by its own name only. -/
theorem name_of_ofName? {s : String} {l : DirectiveLocation} (h : ofName? s = some l) :
    l.name = s := by
  simpa using List.find?_some h

end DirectiveLocation

end GraphQLSyntax
