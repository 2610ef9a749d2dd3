import GraphQLSyntax.Definition
import GraphQLSyntax.Error
import GraphQLSyntax.Token.Scanner

/-!
# Documents

A document is a list of definitions. `Document.parse` reads one from source text, `print` writes
one with as few characters as can be, and `dump` writes it as a tree.

Reading takes tokens only as long as they fit, so of two faults the first in the text is reported,
be it of a token or of the grammar. A lexical fault stands for all that would come behind it.
-/

namespace GraphQLSyntax

/-- Definitions in order, with the text that they were read from, if any. -/
structure Document where
  definitions : List Definition
  source : Option String

/-- How much a source may ask for. -/
structure Limits where
  /-- Levels of selections, of list and object values, and of list types. -/
  depth : Option Nat := some 256
  /-- Bytes. -/
  length : Option Nat := none

namespace Document

/-- A document that was not read from a text. -/
def ofDefinitions (definitions : List Definition) : Document where
  definitions := definitions
  source := none

def operations (d : Document) : List OperationDefinition :=
  d.definitions.filterMap fun
    | .operation operation => some operation
    | _ => none

def fragments (d : Document) : List FragmentDefinition :=
  d.definitions.filterMap fun
    | .fragment fragment => some fragment
    | _ => none

/-! ## Reading -/

/-- The error for a refusal of the grammar, at the token that it is about. Behind the tokens is
what the run ended with. -/
def errorOf (run : Scanner.Run) (failure : Failure) : Error :=
  let refused : Token → Error := fun found =>
    match failure.refusal with
    | .fault fault => .syntactic fault found
    | .tooDeep => .tooDeep found
  match run.tokens[run.tokens.length - failure.ahead.length]? with
  | some token => refused token
  | none =>
    match run.last with
    | .ok token => refused token
    | .error e => .lexical e

/-- The definitions that the tokens of a run are. Without a limit there is room for as many levels
as there are tokens. -/
def ofRun (depth : Option Nat) (run : Scanner.Run) : Except Error (List Definition) :=
  let kinds := run.tokens.filterMap Token.kind
  match Definition.parseAll (depth.getD kinds.length) kinds with
  | .error failure => .error (errorOf run failure)
  | .ok (definitions, _) =>
    match run.last with
    | .ok _ => .ok definitions
    | .error e => .error (.lexical e)

/-- Reads a document within limits. -/
def parseWithin (limits : Limits) (source : String) : Except Error Document :=
  let length := source.utf8ByteSize
  match limits.length with
  | some limit =>
    if limit < length then .error (.tooLong length limit) else read
  | none => read
where
  read : Except Error Document :=
    (ofRun limits.depth (Scanner.ofSource source).run.1).map fun definitions =>
      ⟨definitions, some source⟩

/-- Reads a document within the default limits. -/
def parse (source : String) : Except Error Document :=
  parseWithin {} source

/-! ## Writing -/

/-- The tokens that a document is written as. -/
def tokens (d : Document) : List TokenKind :=
  Definition.allTokens false d.definitions

/-- The shortest text of a document. -/
def print (d : Document) : String :=
  String.ofList (spell d.tokens)

def sexp (d : Document) : Sexp :=
  .node "doc" [.list (d.definitions.map Definition.sexp)]

/-- The text of the tree of a document. -/
def dump (d : Document) : String :=
  String.ofList d.sexp.text

/-! ## Equivalence -/

/-- Whether two documents define the same, whatever they were read from. -/
def equiv (a b : Document) : Bool :=
  a.definitions.isEqv b.definitions Definition.equiv

end Document

end GraphQLSyntax
