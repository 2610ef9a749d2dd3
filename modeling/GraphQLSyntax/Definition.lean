import GraphQLSyntax.Operation
import GraphQLSyntax.TypeSystem

/-!
# Definitions

The parts of a document. Operations and fragments are executable, all others belong to the type
system.
-/

namespace GraphQLSyntax

inductive Definition
  | operation (d : OperationDefinition)
  | fragment (d : FragmentDefinition)
  | schema (d : SchemaDefinition)
  | type (d : TypeDefinition)
  | directive (d : DirectiveDefinition)

namespace Definition

/-- The name of a definition. Schemas have none, and operations need not have one. -/
def name? : Definition → Option String
  | operation d => d.name
  | fragment d => some d.name
  | schema _ => none
  | type d => some d.name
  | directive d => some d.name

def isExecutable : Definition → Bool
  | operation _ | fragment _ => true
  | schema _ | type _ | directive _ => false

/-! ## Reading -/

/-- The definition that a keyword begins, at the keyword. -/
def parseKeyword (room : Nat) (heading : Heading) (keyword : String) : Parser Definition := do
  match DefinitionKeyword.ofName? keyword with
  | some (.operation operationType) =>
    heading.refuseFor keyword
    return operation (← OperationDefinition.parse room operationType)
  | some .fragment =>
    heading.refuseFor keyword
    return fragment (← FragmentDefinition.parse room)
  | some .schema => return schema (← SchemaDefinition.parse room heading)
  | some .directive =>
    if heading.isExtension then
      Parser.fail .extendedDirective
    return directive (← DirectiveDefinition.parse room heading.description)
  | some (.type kind) => return type (← TypeDefinition.parse room heading kind)
  | none => Parser.fail .unknownDefinition

/-- A definition: selections alone, or an optional heading and a keyword. -/
def parse (room : Nat) : Parser Definition := do
  if (← Parser.peek) = some (.punctuator .braceOpen) then
    return operation (.shorthand (← Selection.parseSet room))
  let heading ← Heading.parse
  match ← Parser.peek with
  | some (.name keyword) => parseKeyword room heading keyword
  | _ => Parser.fail .expectedDefinition

/-- Definitions up to the end. -/
def parseAll (room : Nat) : Parser (List Definition) :=
  Parser.repeated do
    if (← Parser.peek).isNone then
      return none
    else
      return some (← parse room)

/-! ## Writing -/

/-- Whether a brace right behind the definition would be read as a part of it. -/
def lacksBlock : Definition → Bool
  | schema d => d.operationTypes.isEmpty
  | type d => d.body.lacksBlock
  | operation _ | fragment _ | directive _ => false

/-- The tokens of a definition. A brace that could be taken for the block of what stands in front
does not begin it. -/
def tokens (behindOpenBlock : Bool) : Definition → List TokenKind
  | operation d => d.tokens behindOpenBlock
  | fragment d => d.tokens
  | schema d => d.tokens
  | type d => d.tokens
  | directive d => d.tokens

/-- The tokens of definitions in a row. -/
def allTokens (behindOpenBlock : Bool) : List Definition → List TokenKind
  | [] => []
  | d :: ds => d.tokens behindOpenBlock ++ allTokens d.lacksBlock ds

def sexp : Definition → Sexp
  | operation d => d.sexp
  | fragment d => d.sexp
  | schema d => d.sexp
  | type d => d.sexp
  | directive d => d.sexp

def equiv : Definition → Definition → Bool
  | operation a, operation b => a.equiv b
  | fragment a, fragment b => a.equiv b
  | schema a, schema b => a.equiv b
  | type a, type b => a.equiv b
  | directive a, directive b => a.equiv b
  | _, _ => false

end Definition

end GraphQLSyntax
