import GraphQLSyntax.Directive

/-!
# Selections

What an operation or a fragment asks for: fields, which can have selections of their own, and
fragments, by name or in place.
-/

namespace GraphQLSyntax

inductive Selection
  /-- A field. Without selections of its own it is a leaf. -/
  | field (aliasName : Option String) (name : String) (arguments : List (Argument .dynamic))
      (directives : List (Directive .dynamic)) (selections : List Selection)
  /-- The fragment of this name. -/
  | spread (name : String) (directives : List (Directive .dynamic))
  /-- Selections for objects of one type. -/
  | inline (condition : String) (directives : List (Directive .dynamic))
      (selections : List Selection)

namespace Selection

/-- The key of a field in a response: its alias, or else its name. -/
def responseKey (aliasName : Option String) (name : String) : String :=
  aliasName.getD name

/-! ## Reading -/

/-- A selection behind a spread. The name `on` makes it an inline fragment. -/
def parseSpread (room : Nat) (set : Parser (List Selection)) : Parser Selection := do
  match ← Parser.peek with
  | some (.name name) =>
    Parser.skip
    if name = "on" then
      let condition ← Parser.name
      let directives ← Directive.parseAll .dynamic room
      return inline condition directives (← set)
    else
      return spread name (← Directive.parseAll .dynamic room)
  | _ => Parser.fail .expectedSpreadTarget

/-- A field, with an alias if a colon stands behind the first name. -/
def parseField (room : Nat) (set : Parser (List Selection)) : Parser Selection := do
  let first ← Parser.name
  let (aliasName, name) ←
    if ← Parser.eatPunctuator .colon then
      pure (some first, ← Parser.name)
    else
      pure (none, first)
  let arguments ← Argument.parseAll .dynamic room
  let directives ← Directive.parseAll .dynamic room
  let selections ←
    if (← Parser.peek) = some (.punctuator .braceOpen) then
      set
    else
      pure []
  return field aliasName name arguments directives selections

/-- A selection whose own selections are read by `set`. -/
def parseOne (room : Nat) (set : Parser (List Selection)) : Parser Selection := do
  if ← Parser.eatPunctuator .spread then
    parseSpread room set
  else
    parseField room set

/-- Selections in braces, each read by `inner`. -/
def parseBraced (inner : Option (Parser Selection)) : Parser (List Selection) := do
  Parser.expect .braceOpen
  Parser.nested inner (Parser.delimitedNonempty .selections .braceClose)

/-- Selections in braces with at most `room` levels of braces and of delimiters in values. -/
def parseSet : (room : Nat) → Parser (List Selection)
  | 0 => parseBraced none
  | room + 1 => parseBraced (some (parseOne room (parseSet room)))

/-! ## Writing -/

mutual

def tokens : Selection → List TokenKind
  | field aliasName name arguments directives selections =>
    (match aliasName with
      | none => []
      | some first => [.name first, punct .colon]) ++
    .name name :: Argument.allTokens arguments ++ Directive.allTokens directives ++
    (if selections.isEmpty then [] else
      punct .braceOpen :: listTokens selections ++ [punct .braceClose])
  | spread name directives => punct .spread :: .name name :: Directive.allTokens directives
  | inline condition directives selections =>
    punct .spread :: .name "on" :: .name condition :: Directive.allTokens directives ++
      punct .braceOpen :: listTokens selections ++ [punct .braceClose]

def listTokens : List Selection → List TokenKind
  | [] => []
  | s :: selections => s.tokens ++ listTokens selections

end

/-- Selections in their braces, which stand there even if they hold nothing. -/
def setTokens (selections : List Selection) : List TokenKind :=
  punct .braceOpen :: listTokens selections ++ [punct .braceClose]

mutual

def sexp : Selection → Sexp
  | field aliasName name arguments directives selections =>
    .node "field" [.atomOrAbsent aliasName, .atom name, .list (arguments.map Argument.sexp),
      Directive.allSexp directives, .list (sexps selections)]
  | spread name directives => .node "frag-spread" [.atom name, Directive.allSexp directives]
  | inline condition directives selections =>
    .node "inline-frag" [.atom condition, Directive.allSexp directives, .list (sexps selections)]

def sexps : List Selection → List Sexp
  | [] => []
  | s :: selections => s.sexp :: sexps selections

end

/-! ## Equivalence -/

mutual

def equiv : Selection → Selection → Bool
  | field a x as ds ss, field b y bs es ts =>
    a == b && x == y && as.isEqv bs Argument.equiv && Directive.allEquiv ds es && equivAll ss ts
  | spread x ds, spread y es => x == y && Directive.allEquiv ds es
  | inline x ds ss, inline y es ts => x == y && Directive.allEquiv ds es && equivAll ss ts
  | _, _ => false

def equivAll : List Selection → List Selection → Bool
  | [], [] => true
  | s :: ss, t :: ts => s.equiv t && equivAll ss ts
  | _, _ => false

end

end Selection

end GraphQLSyntax
