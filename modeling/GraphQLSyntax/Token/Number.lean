import GraphQLSyntax.Token.Basic
import GraphQLSyntax.Token.Fault

/-!
# Number literals

A number is an optional minus sign, a whole part that does not begin with a zero unless it is one,
an optional fraction and an optional exponent. A letter, an underscore or a point must not stand
right behind it. With a fraction or an exponent it is a floating-point number, else an integer of 64
bits.
-/

namespace GraphQLSyntax

/-- The parts of a number as they are written. -/
structure NumberLiteral where
  negative : Bool
  whole : List Char
  fraction : Option (List Char)
  /-- Whether the exponent is negative, and its digits. -/
  exponent : Option (Bool × List Char)
deriving DecidableEq, Repr

namespace NumberLiteral

/-! ## Reading -/

/-- A digit was needed ahead of `cs`. -/
def expectedDigitAt (cs : List Char) : LexFaultAt :=
  match cs with
  | [] => ⟨.unterminatedNumber, []⟩
  | c :: _ => ⟨.expectedDigit c, cs⟩

/-- One digit or more. -/
def readDigits (cs : List Char) : Reading (List Char) :=
  match cs.takeWhile Char.isDigit with
  | [] => .error (expectedDigitAt cs)
  | digits => .ok (digits, cs.dropWhile Char.isDigit)

def readSign : List Char → Bool × List Char
  | '-' :: cs => (true, cs)
  | cs => (false, cs)

/-- The whole part. Nothing but a zero begins with a zero. -/
def readWhole : List Char → Reading (List Char)
  | '0' :: d :: cs => if d.isDigit then .error ⟨.digitAfterZero d, d :: cs⟩ else .ok (['0'], d :: cs)
  | cs => readDigits cs

def readFraction : List Char → Reading (Option (List Char))
  | '.' :: cs => (readDigits cs).map fun (digits, cs) => (some digits, cs)
  | cs => .ok (none, cs)

/-- An exponent may have a plus sign too. -/
def readExponentSign : List Char → Bool × List Char
  | '+' :: cs => (false, cs)
  | cs => readSign cs

def readExponent : List Char → Reading (Option (Bool × List Char))
  | c :: cs =>
    if c = 'e' ∨ c = 'E' then
      let (negative, cs) := readExponentSign cs
      (readDigits cs).map fun (digits, cs) => (some (negative, digits), cs)
    else
      .ok (none, c :: cs)
  | [] => .ok (none, [])

/-- Whether the character would go on with a number that it stands right behind. -/
def joinsNumber (c : Char) : Bool :=
  c == '.' || c == '_' || c.isAlpha

/-- A number, up to a character that cannot belong to it. -/
def read (cs : List Char) : Except LexFaultAt (NumberLiteral × List Char) := do
  let (negative, cs) := readSign cs
  let (whole, cs) ← readWhole cs
  let (fraction, cs) ← readFraction cs
  let (exponent, cs) ← readExponent cs
  if cs.head?.any joinsNumber then
    throw (expectedDigitAt cs)
  return (⟨negative, whole, fraction, exponent⟩, cs)

/-! ## Value -/

/-- The integer of these digits, if it fits. -/
def integer? (n : NumberLiteral) : Option Int64 :=
  let magnitude : Int := Nat.ofDigitChars 10 n.whole 0
  let value := if n.negative then -magnitude else magnitude
  if Int64.minValue.toInt ≤ value ∧ value ≤ Int64.maxValue.toInt then some (Int64.ofInt value)
  else none

/-- The power of ten that the exponent part names. -/
def power (n : NumberLiteral) : Int :=
  match n.exponent with
  | none => 0
  | some (negative, digits) =>
    let magnitude : Int := Nat.ofDigitChars 10 digits 0
    if negative then -magnitude else magnitude

/-- The double nearest to the number. -/
def double (n : NumberLiteral) : Double :=
  (Decimal.ofDigits n.whole (n.fraction.getD []) n.power).toDouble n.negative

/-- The token that the number is, unless it is an integer that does not fit. -/
def kind? (n : NumberLiteral) : Option TokenKind :=
  if n.fraction.isNone && n.exponent.isNone then n.integer?.map .int else some (.float n.double)

end NumberLiteral

end GraphQLSyntax
