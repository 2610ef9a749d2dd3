import GraphQLSyntax.Parser.Fault
import GraphQLSyntax.Token.Fault

/-!
# Errors

Why a source is refused, with the bytes to point at. `Error.description` says what is wrong, and
`Error.message` says it with the place.
-/

namespace GraphQLSyntax

/-- A range of bytes, from `start` up to but not including `stop`. Its ends are natural numbers, as
the offsets of a `Token` are: they fit in 32 bits where the source has fewer than `2 ^ 32` bytes. -/
structure Span where
  start : Nat
  stop : Nat
deriving DecidableEq, Repr

def Token.span (t : Token) : Span where
  start := t.start
  stop := t.stop

/-- The place of a range in a message. -/
def Span.display (s : Span) : String :=
  String.ofList (Nat.toDigits 10 s.start) ++ ".." ++ String.ofList (Nat.toDigits 10 s.stop)

/-- Why a source is refused. -/
inductive Error
  /-- A malformed lexeme. -/
  | lexical (e : LexError)
  /-- A token that does not fit the grammar. -/
  | syntactic (fault : SyntaxFault) (found : Token)
  /-- A token that would nest too deeply. -/
  | tooDeep (found : Token)
  /-- A source of more bytes than the limit. -/
  | tooLong (length limit : Nat)
deriving DecidableEq, Repr

namespace Error

/-- The bytes to point at, none of them behind the end of the source. A lexical error is between two
of them. -/
def span : Error → Span
  | lexical e => ⟨e.offset, e.offset⟩
  | syntactic _ found => found.span
  | tooDeep found => found.span
  | tooLong _ _ => ⟨0, 0⟩

/-- What is wrong, without the place. -/
def description : Error → String
  | lexical e => e.fault.message
  | syntactic fault found => fault.message ++ ", found " ++ found.display
  | tooDeep _ => "recursion limit exceeded"
  | tooLong length limit =>
    "source too large: " ++ String.ofList (Nat.toDigits 10 length) ++ " bytes, limit is " ++
      String.ofList (Nat.toDigits 10 limit)

/-- What is wrong and where. -/
def message (e : Error) : String :=
  match e with
  | lexical e => e.display
  | syntactic _ _ | tooDeep _ => e.description ++ " at " ++ e.span.display
  | tooLong _ _ => e.description

end Error

end GraphQLSyntax
