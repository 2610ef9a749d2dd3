import GraphQLSyntax.Text.Written

/-!
# Lexical faults

What can be wrong with the text of a token, and where it is noticed. Inside a text the place is
given by what is still ahead of it, which does not depend on what came before; the scanner turns
it into a byte offset.
-/

namespace GraphQLSyntax

/-- What is wrong with a lexeme. -/
inductive LexFault
  | unexpectedSymbol (c : Char)
  | unfinishedSpread
  | digitAfterZero (digit : Char)
  | expectedDigit (found : Char)
  | unterminatedNumber
  | integerOutOfRange
  | unterminatedString
  | newlineInString
  | unterminatedUnicodeEscape
  | invalidUnicodeEscape (text : List Char)
  | unterminatedBlockString
deriving DecidableEq, Repr

def LexFault.message : LexFault → String
  | unexpectedSymbol c =>
    "unexpected symbol `" ++ String.ofList (shownChar c) ++ "` (0x" ++
      String.ofList (Nat.toDigits 16 c.toNat) ++ ")"
  | unfinishedSpread => "unfinished spread operator"
  | digitAfterZero digit =>
    "invalid number, unexpected digit after 0: `" ++ String.ofList [digit] ++ "`"
  | expectedDigit found =>
    "invalid number, expected digit but got `" ++ String.ofList (shownChar found) ++ "`"
  | unterminatedNumber => "unterminated number"
  | integerOutOfRange => "invalid number, integer out of range"
  | unterminatedString => "unterminated string"
  | newlineInString => "unterminated string, newline in non-block string"
  | unterminatedUnicodeEscape => "unterminated Unicode escape"
  | invalidUnicodeEscape text => "invalid Unicode escape `" ++ String.ofList text ++ "`"
  | unterminatedBlockString => "unterminated block string"

/-- A lexical fault with the byte offset at which it was noticed. -/
structure LexError where
  fault : LexFault
  offset : Nat
deriving DecidableEq, Repr

/-- The message of a lexical fault with its place. -/
def LexError.display (e : LexError) : String :=
  e.fault.message ++ " at " ++ String.ofList (Nat.toDigits 10 e.offset)

/-- A lexical fault with the text that was ahead where it was noticed. -/
structure LexFaultAt where
  fault : LexFault
  ahead : List Char
deriving DecidableEq, Repr

/-- A part of a lexeme that was read from the front of a text, with the text behind it. -/
abbrev Reading (α : Type) := Except LexFaultAt (α × List Char)

/-- A part that was read, and what it was made into. -/
theorem of_map_eq_ok {α β : Type} {r : Reading α} {f : α × List Char → β × List Char}
    {y : β} {rest : List Char} (h : r.map f = .ok (y, rest)) :
    ∃ x rest', r = .ok (x, rest') ∧ f (x, rest') = (y, rest) := by
  cases r with
  | error fault => cases h
  | ok result => exact ⟨result.1, result.2, rfl, Except.ok.inj h⟩

end GraphQLSyntax
