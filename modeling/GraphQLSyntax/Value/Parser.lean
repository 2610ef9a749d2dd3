import GraphQLSyntax.Parser.Basic
import GraphQLSyntax.Value.Basic

/-!
# Reading values

A value is a literal, a name, a list or an object. The names `true`, `false` and `null` are not
enum values. Lists and objects nest: `Value.parse` is given how many levels are left, and a
delimiter with none left is too deep.

Constant and dynamic values have one grammar, except that a dollar sign is refused where only
constants may stand.
-/

namespace GraphQLSyntax

namespace Value

variable {m : ValueMode}

/-- The value that a bare name stands for. -/
def ofName (name : String) : Value m :=
  if name = "true" then .boolean true
  else if name = "false" then .boolean false
  else if name = "null" then .null
  else .enum name

/-- The value that is a single token. -/
def ofToken? : TokenKind → Option (Value m)
  | .name name => some (ofName name)
  | .int value => some (.int value)
  | .float value => some (.float value)
  | .string value => some (.string value)
  | .punctuator _ => none

/-- A reference to a variable, at its dollar sign. -/
def parseVarRef : Parser (Value m) := do
  if dynamic : m = .dynamic then
    Parser.skip
    return .varRef (← Parser.name) dynamic
  else
    Parser.fail .variableInConst

/-- An entry of an object. -/
def parseEntry (value : Parser (Value m)) : Parser (String × Value m) := do
  let name ← Parser.name
  Parser.expect .colon
  return (name, ← value)

/-- A value whose parts inside of delimiters are read by `inner`. -/
def parseOne (inner : Option (Parser (Value m))) : Parser (Value m) := do
  match ← Parser.peek with
  | some (.punctuator .bracketOpen) =>
    Parser.skip
    Parser.nested inner fun value => .list <$> Parser.delimited .bracketClose value
  | some (.punctuator .braceOpen) =>
    Parser.skip
    Parser.nested inner fun value => ofPairs <$> Parser.delimited .braceClose (parseEntry value)
  | some (.punctuator .dollar) => parseVarRef
  | some kind =>
    match ofToken? kind with
    | some value => Parser.skip; return value
    | none => Parser.fail .expectedValue
  | none => Parser.fail .expectedValue

/-- A value with at most `room` levels of lists and objects. -/
def parse (m : ValueMode) : (room : Nat) → Parser (Value m)
  | 0 => parseOne none
  | room + 1 => parseOne (some (parse m room))

/-- A constant value behind an equals sign, if there is one. -/
def parseDefault (room : Nat) : Parser (Option (Value .const)) := do
  if ← Parser.eatPunctuator .equals then
    return some (← parse .const room)
  else
    return none

end Value

end GraphQLSyntax
