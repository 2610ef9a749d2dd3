import GraphQLSyntax.Parser.Basic
import GraphQLSyntax.Sexp
import GraphQLSyntax.Token.Spelling

/-!
# Type references

The type of a field, an argument or a variable: a named type, a list of a type, or either without
null. Lists nest.
-/

namespace GraphQLSyntax

inductive TypeRef
  | named (name : String)
  | list (inner : TypeRef)
  | nonNull (inner : TypeRef)
deriving DecidableEq, Inhabited, Repr

namespace TypeRef

/-- The name inside of all lists. -/
def innermostName : TypeRef → String
  | named name => name
  | list inner | nonNull inner => inner.innermostName

/-! ## Reading -/

/-- A type whose item type, if it is a list, is read by `inner`. -/
def parseOne (inner : Option (Parser TypeRef)) : Parser TypeRef := do
  let type ←
    if ← Parser.eatPunctuator .bracketOpen then
      Parser.nested inner fun item => do
        let type ← item
        Parser.expect .bracketClose
        return list type
    else
      named <$> Parser.name
  if ← Parser.eatPunctuator .bang then
    return nonNull type
  else
    return type

/-- A type with at most `room` levels of lists. -/
def parse : (room : Nat) → Parser TypeRef
  | 0 => parseOne none
  | room + 1 => parseOne (some (parse room))

/-! ## Writing -/

def tokens : TypeRef → List TokenKind
  | named name => [.name name]
  | list inner => punct .bracketOpen :: inner.tokens ++ [punct .bracketClose]
  | nonNull inner => inner.tokens ++ [punct .bang]

def sexp : TypeRef → Sexp
  | named name => .atom name
  | list inner => .node "list" [inner.sexp]
  | nonNull inner => .node "non-null" [inner.sexp]

end TypeRef

end GraphQLSyntax
