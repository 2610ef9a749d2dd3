import GraphQLSyntax.Parser.Fault

/-!
# Parsers

A parser reads from the front of a list of token kinds. It looks at one token at a time and never
goes back, and its first refusal is final.

Repetition is bounded by the number of tokens: a step that takes a token for each item it gives
cannot give more items than there are tokens.
-/

namespace GraphQLSyntax

/-- A parser takes tokens from the front of a list, or refuses the first that it did not take. -/
abbrev Parser := StateT (List TokenKind) (Except Failure)

namespace Parser

variable {α β : Type}

/-! ## Single tokens -/

/-- Refuses the next token. -/
def refuse (refusal : Refusal) : Parser α := fun ts =>
  .error ⟨refusal, ts⟩

/-- Refuses the next token because it does not fit the grammar. -/
def fail (f : SyntaxFault) : Parser α :=
  refuse (.fault f)

/-- The next token, none at the end. -/
def peek : Parser (Option TokenKind) := fun ts =>
  .ok (ts.head?, ts)

/-- Takes the next token. -/
def skip : Parser Unit := fun ts =>
  .ok ((), ts.tail)

/-- Takes the next token if it is `kind`. -/
def eat (kind : TokenKind) : Parser Bool := do
  if (← peek) = some kind then
    skip
    return true
  else
    return false

def eatPunctuator (p : Punctuator) : Parser Bool :=
  eat (.punctuator p)

def eatKeyword (keyword : String) : Parser Bool :=
  eat (.name keyword)

/-- Takes a punctuator that must come next. -/
def expect (p : Punctuator) : Parser Unit := do
  unless ← eatPunctuator p do
    fail (.expectedPunctuator p)

/-- Takes a keyword that must come next. -/
def expectKeyword (keyword : String) : Parser Unit := do
  unless ← eatKeyword keyword do
    fail (.expectedKeyword keyword)

/-- Takes a name that must come next. -/
def name : Parser String := do
  match ← peek with
  | some (.name text) => skip; return text
  | _ => fail .expectedName

/-- Takes a name if one comes next. -/
def name? : Parser (Option String) := do
  match ← peek with
  | some (.name text) => skip; return some text
  | _ => return none

/-- Takes a string if one comes next. -/
def string? : Parser (Option String) := do
  match ← peek with
  | some (.string text) => skip; return some text
  | _ => return none

/-! ## Repetition -/

/-- The items that `step` gives until it gives none, at most `n`. -/
def collect (step : Parser (Option α)) : Nat → Parser (List α)
  | 0 => return []
  | n + 1 => do
    match ← step with
    | none => return []
    | some x => return x :: (← collect step n)

/-- The items that `step` gives until it gives none. It must take a token for each. -/
def repeated (step : Parser (Option α)) : Parser (List α) := fun ts =>
  collect step (ts.length + 1) ts

/-- Items, each behind `separator`, for as long as there is one. -/
def each (separator : Punctuator) (item : Parser α) : Parser (List α) :=
  repeated do
    if ← eatPunctuator separator then
      return some (← item)
    else
      return none

/-- One item or more with a separator between each two, and optionally one in front. -/
def separated (separator : Punctuator) (item : Parser α) : Parser (List α) := do
  discard (eatPunctuator separator)
  let first ← item
  return first :: (← each separator item)

/-- Items up to a closing delimiter, behind the opening one. -/
def delimited (close : Punctuator) (item : Parser α) : Parser (List α) :=
  repeated do
    if ← eatPunctuator close then
      return none
    if (← peek).isNone then
      fail (.unclosed close)
    return some (← item)

/-- The same for a list that may not be empty. -/
def delimitedNonempty (list : NonemptyList) (close : Punctuator) (item : Parser α) :
    Parser (List α) := do
  if (← peek) = some (.punctuator close) then
    fail (.empty list)
  delimited close item

/-- A list between delimiters that may be left out as a whole, but not be empty. -/
def optionalList (list : NonemptyList) (opening close : Punctuator) (item : Parser α) :
    Parser (List α) := do
  if ← eatPunctuator opening then
    delimitedNonempty list close item
  else
    return []

/-! ## Nesting -/

/-- What stands inside of a delimiter just taken, unless that is too deep. A missing parser is one
level deeper than the limit allows. -/
def nested (inner : Option (Parser α)) (body : Parser α → Parser β) : Parser β :=
  match inner with
  | none => refuse .tooDeep
  | some p => body p

end Parser

end GraphQLSyntax
