import GraphQLSyntax.Keyword
import GraphQLSyntax.Selection
import GraphQLSyntax.TypeRef

/-!
# Operations and fragments

The executable definitions. An operation selects from the type at which its kind of operation
starts, and can take variables; a fragment is a selection with a name, for objects of one type.
-/

namespace GraphQLSyntax

structure VariableDefinition where
  name : String
  type : TypeRef
  default : Option (Value .const)
  directives : List (Directive .const)

structure OperationDefinition where
  name : Option String
  operation : OperationType
  variableDefinitions : List VariableDefinition
  directives : List (Directive .dynamic)
  selections : List Selection

structure FragmentDefinition where
  name : String
  condition : String
  directives : List (Directive .dynamic)
  selections : List Selection

namespace VariableDefinition

def parse (room : Nat) : Parser VariableDefinition := do
  Parser.expect .dollar
  let name ← Parser.name
  Parser.expect .colon
  let type ← TypeRef.parse room
  let default ← Value.parseDefault room
  let directives ← Directive.parseAll .const room
  return { name, type, default, directives }

def tokens (d : VariableDefinition) : List TokenKind :=
  punct .dollar :: .name d.name :: punct .colon :: d.type.tokens ++
    Value.defaultTokens d.default ++ Directive.allTokens d.directives

def sexp (d : VariableDefinition) : Sexp :=
  .node "var" [.atom d.name, d.type.sexp, Value.defaultSexp d.default,
    Directive.allSexp d.directives]

def equiv (a b : VariableDefinition) : Bool :=
  a.name == b.name && a.type == b.type && Value.equivDefault a.default b.default &&
    Directive.allEquiv a.directives b.directives

end VariableDefinition

namespace OperationDefinition

/-- A query that is only its selections. -/
def shorthand (selections : List Selection) : OperationDefinition where
  name := none
  operation := .query
  variableDefinitions := []
  directives := []
  selections := selections

/-- Whether the operation can be written as its selections alone. -/
def isShorthand (d : OperationDefinition) : Bool :=
  d.operation == .query && d.name.isNone && d.variableDefinitions.isEmpty && d.directives.isEmpty

/-- An operation, at its keyword. -/
def parse (room : Nat) (operation : OperationType) : Parser OperationDefinition := do
  Parser.skip
  let name ← Parser.name?
  let variableDefinitions ←
    Parser.optionalList .variableDefinitions .parenOpen .parenClose (VariableDefinition.parse room)
  let directives ← Directive.parseAll .dynamic room
  let selections ← Selection.parseSet room
  return { name, operation, variableDefinitions, directives, selections }

/-- The tokens of an operation with its keyword. -/
def fullTokens (d : OperationDefinition) : List TokenKind :=
  .name d.operation.name :: (d.name.map TokenKind.name).toList ++
    enclosed .parenOpen .parenClose (d.variableDefinitions.map VariableDefinition.tokens) ++
    Directive.allTokens d.directives ++ Selection.setTokens d.selections

/-- The tokens of an operation, with its keyword only if it needs one or if the brace that it would
begin with could be read as part of what stands in front. -/
def tokens (behindOpenBlock : Bool) (d : OperationDefinition) : List TokenKind :=
  if d.isShorthand && !behindOpenBlock then Selection.setTokens d.selections else d.fullTokens

def sexp (d : OperationDefinition) : Sexp :=
  .node "op" [.atomOrAbsent d.name, .list (d.variableDefinitions.map VariableDefinition.sexp),
    Directive.allSexp d.directives, .operationType d.operation, .list (Selection.sexps d.selections)]

def equiv (a b : OperationDefinition) : Bool :=
  a.name == b.name && a.operation == b.operation &&
    a.variableDefinitions.isEqv b.variableDefinitions VariableDefinition.equiv &&
    Directive.allEquiv a.directives b.directives && Selection.equivAll a.selections b.selections

end OperationDefinition

namespace FragmentDefinition

/-- A fragment, at its keyword. Its name is not `on`. -/
def parse (room : Nat) : Parser FragmentDefinition := do
  Parser.skip
  if (← Parser.peek) = some (.name "on") then
    Parser.fail .expectedFragmentName
  let name ← Parser.name
  Parser.expectKeyword "on"
  let condition ← Parser.name
  let directives ← Directive.parseAll .dynamic room
  let selections ← Selection.parseSet room
  return { name, condition, directives, selections }

def tokens (d : FragmentDefinition) : List TokenKind :=
  .name "fragment" :: .name d.name :: .name "on" :: .name d.condition ::
    Directive.allTokens d.directives ++ Selection.setTokens d.selections

def sexp (d : FragmentDefinition) : Sexp :=
  .node "frag" [.atom d.name, .atom d.condition, Directive.allSexp d.directives,
    .list (Selection.sexps d.selections)]

def equiv (a b : FragmentDefinition) : Bool :=
  a.name == b.name && a.condition == b.condition && Directive.allEquiv a.directives b.directives &&
    Selection.equivAll a.selections b.selections

end FragmentDefinition

end GraphQLSyntax
