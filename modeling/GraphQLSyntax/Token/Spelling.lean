import GraphQLSyntax.Text.Written
import GraphQLSyntax.Token.Basic

/-!
# Writing tokens

A token sequence is written with as few characters as can be. Punctuators delimit themselves, so a
space is needed only where two tokens would be read as one: between two words (names and numbers),
and between two strings, whose quotes could open a block string.
-/

namespace GraphQLSyntax

/-! ## Token sequences -/

/-- A punctuator as a token. -/
abbrev punct (p : Punctuator) : TokenKind :=
  .punctuator p

/-- A description is a string in front of what it describes. -/
def descriptionTokens (description : Option String) : List TokenKind :=
  (description.map TokenKind.string).toList

/-- Items between delimiters; nothing at all if there are no items. -/
def enclosed (opening close : Punctuator) (items : List (List TokenKind)) : List TokenKind :=
  if items.isEmpty then [] else punct opening :: items.flatten ++ [punct close]

/-- Names with a separator between each two. -/
def separated (separator : Punctuator) (names : List String) : List TokenKind :=
  (names.map TokenKind.name).intersperse (punct separator)

/-! ## Text -/

/-- The shortest source text of a token. -/
def TokenKind.spelling : TokenKind → List Char
  | punctuator p => p.text.toList
  | name text => text.toList
  | int value => integerText value.toInt
  | float value => value.literal
  | string value => quoted value.toList

/-- Names and numbers. -/
def TokenKind.isWord : TokenKind → Bool
  | name _ | int _ | float _ => true
  | punctuator _ | string _ => false

def TokenKind.isString : TokenKind → Bool
  | string _ => true
  | _ => false

/-- Whether a space must stand between two tokens. -/
def needsSpace (left right : TokenKind) : Bool :=
  (left.isWord && right.isWord) || (left.isString && right.isString)

/-- The text of tokens behind another one. -/
def spellBehind (last : TokenKind) : List TokenKind → List Char
  | [] => []
  | k :: ks => (if needsSpace last k then [' '] else []) ++ k.spelling ++ spellBehind k ks

/-- The text of a token sequence. -/
def spell : List TokenKind → List Char
  | [] => []
  | k :: ks => k.spelling ++ spellBehind k ks

end GraphQLSyntax
