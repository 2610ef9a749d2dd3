import GraphQLSyntax.Text.CodePoints

/-!
# Written text

How numbers and characters are written, in a source and in a message.

* `integerText`: an integer in decimal.
* `hexValue?`, `ofHexDigits`: hexadecimal digits are read in either case. Those that are written are
  the digits of `Nat.toDigits 16`, in lower case.
* `quoted`: strings are written between double quotes. Quotes, backslashes and the control
  characters of both blocks (U+0000 to U+001F, U+007F to U+009F) are escaped, all others stand for
  themselves.
* `shownChar`, `shownString`: a message names the character or the string that it is about.
  Characters that would not be seen are written as escapes: in a string all that are unprintable,
  for a single character only the controls.
-/

namespace GraphQLSyntax

/-! ## Numbers -/

/-- The decimal text of an integer: a minus sign in front of a negative one, no leading zeros. -/
def integerText (i : Int) : List Char :=
  if i < 0 then '-' :: Nat.toDigits 10 i.natAbs else Nat.toDigits 10 i.natAbs

/-- The value of a hexadecimal digit, `none` for any other character. -/
def hexValue? (c : Char) : Option Nat :=
  if '0' ≤ c ∧ c ≤ '9' then some (c.toNat - '0'.toNat)
  else if 'a' ≤ c ∧ c ≤ 'f' then some (c.toNat - 'a'.toNat + 10)
  else if 'A' ≤ c ∧ c ≤ 'F' then some (c.toNat - 'A'.toNat + 10)
  else none

def isHexDigit (c : Char) : Bool :=
  (hexValue? c).isSome

/-- The number that a run of hexadecimal digits stands for, the most significant digit first. -/
def ofHexDigits (cs : List Char) : Nat :=
  cs.foldl (fun n c => 16 * n + (hexValue? c).getD 0) 0

/-- The escape of a character by its code point in braces, lower-case and without padding. -/
def bracedEscape (c : Char) : List Char :=
  ['\\', 'u', '\x7b'] ++ Nat.toDigits 16 c.toNat ++ ['\x7d']

/-! ## Quoted text -/

/-- The controls that are written as escapes: those below the space, and from the delete character
to the end of the second block. -/
def isControl (c : Char) : Bool :=
  c.toNat < 0x20 || (0x7F ≤ c.toNat && c.toNat < 0xA0)

private def upperHexDigit (n : Nat) : Char :=
  (Nat.digitChar n).toUpper

/-- A character as it is written inside quotes. -/
def quotedChar (c : Char) : List Char :=
  match c with
  | '"' => ['\\', '"']
  | '\\' => ['\\', '\\']
  | '\x08' => ['\\', 'b']
  | '\t' => ['\\', 't']
  | '\n' => ['\\', 'n']
  | '\x0c' => ['\\', 'f']
  | '\r' => ['\\', 'r']
  | c =>
    if isControl c then
      ['\\', 'u', '0', '0', upperHexDigit (c.toNat / 16), upperHexDigit (c.toNat % 16)]
    else
      [c]

/-- The source form of a string. -/
def quoted (cs : List Char) : List Char :=
  '"' :: cs.flatMap quotedChar ++ ['"']

/-! ## Text in messages -/

/-- An escape for a character that would not be seen. -/
def visibleEscape (c : Char) : List Char :=
  match c with
  | '\x00' => ['\\', '0']
  | '\t' => ['\\', 't']
  | '\r' => ['\\', 'r']
  | '\n' => ['\\', 'n']
  | c => bracedEscape c

/-- A single character as a message shows it. -/
def shownChar (c : Char) : List Char :=
  if isControl c then visibleEscape c else [c]

/-- A string as a message shows it, between double quotes. -/
def shownString (s : String) : String :=
  String.ofList ('"' :: s.toList.flatMap shown ++ ['"'])
where
  shown (c : Char) : List Char :=
    if c == '"' || c == '\\' then ['\\', c]
    else if isUnprintable c then visibleEscape c
    else [c]

end GraphQLSyntax
