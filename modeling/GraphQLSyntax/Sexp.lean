import GraphQLSyntax.Double.Notation
import GraphQLSyntax.Keyword
import GraphQLSyntax.Text.Written

/-!
# S-expressions

The tree form of a document, fully parenthesised. Names are bare atoms and strings are quoted as in
source text; what is absent is `nil`.
-/

namespace GraphQLSyntax

inductive Sexp
  | list (items : List Sexp)
  | atom (text : String)
  | string (value : String)
  | int (value : Int64)
  | float (value : Double)
  | boolean (value : Bool)
  | absent
  | varRef (name : String)

namespace Sexp

/-! ## Building -/

/-- A node: its tag and its fields. -/
def node (tag : String) (fields : List Sexp) : Sexp :=
  .list (.atom tag :: fields)

def atoms (names : List String) : Sexp :=
  .list (names.map .atom)

def atomOrAbsent (name : Option String) : Sexp :=
  (name.map atom).getD absent

def stringOrAbsent (value : Option String) : Sexp :=
  (value.map string).getD absent

/-- The type of an operation, in capitals. -/
def operationType (t : OperationType) : Sexp :=
  .atom t.name.toUpper

/-! ## Text -/

mutual

/-- The text of an s-expression, with one space between the items of a list. -/
def text : Sexp → List Char
  | list [] => ['(', ')']
  | list (item :: items) => '(' :: item.text ++ textBehind items ++ [')']
  | atom name => name.toList
  | string value => quoted value.toList
  | int value => integerText value.toInt
  | float value => value.literal
  | boolean true => "true".toList
  | boolean false => "false".toList
  | absent => "nil".toList
  | varRef name => '$' :: name.toList

/-- The items behind the first of a list. -/
def textBehind : List Sexp → List Char
  | [] => []
  | item :: items => ' ' :: item.text ++ textBehind items

end

end Sexp

end GraphQLSyntax
