import GraphQLSyntax.Value.Equivalence
import GraphQLSyntax.Value.Parser
import GraphQLSyntax.Value.Written

/-!
# Directives

A directive annotates the part of a document behind which it stands. Its arguments, like those of a
field, are named values.
-/

namespace GraphQLSyntax

structure Argument (m : ValueMode) where
  name : String
  value : Value m

structure Directive (m : ValueMode) where
  name : String
  arguments : List (Argument m)

variable {m : ValueMode}

namespace Argument

def parse (m : ValueMode) (room : Nat) : Parser (Argument m) := do
  let (name, value) ← Value.parseEntry (Value.parse m room)
  return ⟨name, value⟩

/-- Arguments in parentheses, none without them. -/
def parseAll (m : ValueMode) (room : Nat) : Parser (List (Argument m)) :=
  Parser.optionalList .arguments .parenOpen .parenClose (parse m room)

def tokens (a : Argument m) : List TokenKind :=
  .name a.name :: punct .colon :: a.value.tokens

def allTokens (arguments : List (Argument m)) : List TokenKind :=
  enclosed .parenOpen .parenClose (arguments.map tokens)

def sexp (a : Argument m) : Sexp :=
  .node "arg" [.atom a.name, a.value.sexp]

def equiv (a b : Argument m) : Bool :=
  a.name == b.name && a.value.equiv b.value

end Argument

namespace Directive

/-- A directive behind its sign. -/
def parse (m : ValueMode) (room : Nat) : Parser (Directive m) := do
  let name ← Parser.name
  return ⟨name, ← Argument.parseAll m room⟩

/-- Directives for as long as there are any. -/
def parseAll (m : ValueMode) (room : Nat) : Parser (List (Directive m)) :=
  Parser.each .atSign (parse m room)

def tokens (d : Directive m) : List TokenKind :=
  punct .atSign :: .name d.name :: Argument.allTokens d.arguments

def allTokens (directives : List (Directive m)) : List TokenKind :=
  directives.flatMap tokens

def sexp (d : Directive m) : Sexp :=
  .node "directive" [.atom d.name, .list (d.arguments.map Argument.sexp)]

def allSexp (directives : List (Directive m)) : Sexp :=
  .list (directives.map sexp)

def equiv (c d : Directive m) : Bool :=
  c.name == d.name && c.arguments.isEqv d.arguments Argument.equiv

def allEquiv (cs ds : List (Directive m)) : Bool :=
  cs.isEqv ds equiv

end Directive

end GraphQLSyntax
