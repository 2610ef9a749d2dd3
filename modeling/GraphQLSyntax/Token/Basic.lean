import GraphQLSyntax.Double.Notation
import GraphQLSyntax.Text.Written

/-!
# Tokens

A token is a punctuator, a name, or a literal with its value. The kind of a token is all that the
grammar sees; a `Token` adds the bytes that it was read from. The end of the source is a token
without a kind.
-/

namespace GraphQLSyntax

inductive Punctuator
  | bang
  | dollar
  | amp
  | parenOpen
  | parenClose
  | spread
  | colon
  | equals
  | atSign
  | bracketOpen
  | bracketClose
  | braceOpen
  | braceClose
  | pipe
deriving DecidableEq, Repr

namespace Punctuator

/-- The source text of a punctuator. -/
def text : Punctuator → String
  | bang => "!"
  | dollar => "$"
  | amp => "&"
  | parenOpen => "("
  | parenClose => ")"
  | spread => "..."
  | colon => ":"
  | equals => "="
  | atSign => "@"
  | bracketOpen => "["
  | bracketClose => "]"
  | braceOpen => "\x7b"
  | braceClose => "\x7d"
  | pipe => "|"

/-- The punctuator that is this single character. All but the spread are one. -/
def ofChar? : Char → Option Punctuator
  | '!' => some bang
  | '$' => some dollar
  | '&' => some amp
  | '(' => some parenOpen
  | ')' => some parenClose
  | ':' => some colon
  | '=' => some equals
  | '@' => some atSign
  | '[' => some bracketOpen
  | ']' => some bracketClose
  | '\x7b' => some braceOpen
  | '\x7d' => some braceClose
  | '|' => some pipe
  | _ => none

/-- A punctuator as a message shows it. -/
def display (p : Punctuator) : String :=
  "`" ++ p.text ++ "`"

end Punctuator

/-- What a token is. Literals have the value that their text stands for: escapes are resolved and
block strings dedented. -/
inductive TokenKind
  | punctuator (p : Punctuator)
  | name (text : String)
  | int (value : Int64)
  | float (value : Double)
  | string (value : String)
deriving DecidableEq, Repr

/-- A token as a message shows it. -/
def TokenKind.display : TokenKind → String
  | punctuator p => p.display
  | name text => "name `" ++ text ++ "`"
  | int value => "int `" ++ String.ofList (integerText value.toInt) ++ "`"
  | float value => "float `" ++ String.ofList value.display ++ "`"
  | string value => "string " ++ shownString value

/-- A token and the bytes of the source that it takes, from `start` up to but not including
`stop`. The end of the source has no kind and takes no bytes.

Offsets are natural numbers here. Kept in 32 bits they are the same for every source of fewer than
`2 ^ 32` bytes, as no offset is behind the end of the source. -/
structure Token where
  kind : Option TokenKind
  start : Nat
  stop : Nat
deriving DecidableEq, Repr

namespace Token

def isEnd (t : Token) : Bool :=
  t.kind.isNone

/-- A token as a message shows it. -/
def display (t : Token) : String :=
  (t.kind.map TokenKind.display).getD "end of input"

end Token

end GraphQLSyntax
