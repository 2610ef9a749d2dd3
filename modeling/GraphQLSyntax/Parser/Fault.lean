import GraphQLSyntax.Token.Basic

/-!
# Faults of the grammar

A token sequence is refused because a token does not fit the grammar, or because the document
nests too deeply. Either is noticed at a token, which is given by the tokens still ahead of it.
-/

namespace GraphQLSyntax

/-- Lists of the grammar that may not be empty between their delimiters. -/
inductive NonemptyList
  | variableDefinitions
  | selections
  | arguments
  | operationTypes
  | fields
  | argumentDefinitions
  | enumValues
  | inputFields
deriving DecidableEq, Repr

/-- What a message calls an item of the list. -/
def NonemptyList.item : NonemptyList → String
  | variableDefinitions => "variable definition"
  | selections => "selection"
  | arguments => "argument"
  | operationTypes => "operation type"
  | fields => "field"
  | argumentDefinitions => "argument definition"
  | enumValues => "enum value"
  | inputFields => "input field"

/-- Extensions that must add something to the type that they extend. -/
inductive ExtensionKind
  | interface
  | enum
  | input
deriving DecidableEq, Repr

namespace ExtensionKind

def keyword : ExtensionKind → String
  | interface => "interface"
  | enum => "enum"
  | input => "input"

/-- What such an extension can add. -/
def parts : ExtensionKind → String
  | interface => "interfaces, directives or fields"
  | enum => "directives or values"
  | input => "directives or fields"

end ExtensionKind

/-- Why a token does not fit the grammar. -/
inductive SyntaxFault
  | expectedPunctuator (p : Punctuator)
  | expectedKeyword (keyword : String)
  | expectedName
  | unclosed (close : Punctuator)
  | empty (list : NonemptyList)
  | expectedDefinition
  | unknownDefinition
  | describedExecutable (keyword : String)
  | extendedExecutable (keyword : String)
  | extendedDirective
  | expectedFragmentName
  | expectedSpreadTarget
  | expectedSchemaBody
  | expectedOperationType
  | unknownOperationType
  | emptyExtension (kind : ExtensionKind) (name : String)
  | expectedLocation
  | unknownLocation
  | expectedValue
  | variableInConst
deriving DecidableEq, Repr

def SyntaxFault.message : SyntaxFault → String
  | expectedPunctuator p => "expected " ++ p.display
  | expectedKeyword keyword => "expected `" ++ keyword ++ "`"
  | expectedName => "expected a name"
  | unclosed close => "expected closing delimiter " ++ close.display
  | empty list => "expected at least one " ++ list.item
  | expectedDefinition => "expected a definition"
  | unknownDefinition => "unknown definition type"
  | describedExecutable keyword => "`" ++ keyword ++ "` definitions cannot have a description"
  | extendedExecutable keyword => "`" ++ keyword ++ "` definitions cannot be extended"
  | extendedDirective => "directive definitions cannot be extended"
  | expectedFragmentName => "expected a fragment name"
  | expectedSpreadTarget => "expected name or `on` after " ++ Punctuator.display .spread
  | expectedSchemaBody =>
    "expected " ++ Punctuator.display .braceOpen ++ " or directives after `schema`"
  | expectedOperationType => "expected an operation type"
  | unknownOperationType => "unknown operation type"
  | emptyExtension kind name =>
    kind.keyword ++ " extension `" ++ name ++ "` must add " ++ kind.parts
  | expectedLocation => "expected a directive location"
  | unknownLocation => "unknown directive location"
  | expectedValue => "expected a value"
  | variableInConst => "variables are not allowed in const values"

/-- Why a token sequence is refused. -/
inductive Refusal
  | fault (f : SyntaxFault)
  | tooDeep
deriving DecidableEq, Repr

/-- A refusal with the tokens from the refused one on, none at the end of the source. -/
structure Failure where
  refusal : Refusal
  ahead : List TokenKind
deriving DecidableEq, Repr

end GraphQLSyntax
