import GraphQLSyntax.Double.Shortest

/-!
# Doubles as text

Numbers from `0.0001` up to but not including `10 ^ 16` are written positionally, with a digit on
either side of the point. All others are written scientifically, `1e16` or `9.9e-5`, with a point
only if more than one digit stands in front of the exponent. Either way the text holds a point or
an exponent, so it is not read as an integer.

There are two forms, which differ in infinity. The literal form writes `1e999`, which reads back as
infinity; the display form names it. Neither can be read back for what is not a number.

Reading (`Double.ofText?`) takes any decimal text and the three names.

* `Double.literal_eq`: the literal form is a sign and the text of a decimal, or that of infinity.
-/

namespace GraphQLSyntax

/-! ## Writing -/

namespace Decimal

/-- The digits without the zeros at their end; zero keeps none. -/
def significantDigits (coefficient : Nat) : List Char :=
  ((Nat.toDigits 10 coefficient).reverse.dropWhile (· == '0')).reverse

/-- The power of ten of the first digit. -/
def leadingExponent (x : Decimal) : Int :=
  digitCount x.coefficient + x.exponent - 1

/-- Digits with a point behind the first `whole` of them, and zeros where a digit is missing. -/
def pointed (digits : List Char) (whole : Nat) : List Char :=
  let fraction := digits.drop whole
  digits.take whole ++ List.replicate (whole - digits.length) '0' ++
    '.' :: (if fraction.isEmpty then ['0'] else fraction)

/-- The positional form of a decimal with these digits, the first of which counts
`10 ^ leading`. -/
def positional (digits : List Char) (leading : Int) : List Char :=
  if leading < 0 then
    ['0', '.'] ++ List.replicate (-leading - 1).toNat '0' ++ digits
  else
    pointed digits (leading.toNat + 1)

/-- The scientific form of the same. -/
def scientific (digits : List Char) (leading : Int) : List Char :=
  let sign := if leading < 0 then ['-'] else []
  let mantissa := if digits.length ≤ 1 then digits else pointed digits 1
  mantissa ++ 'e' :: sign ++ Nat.toDigits 10 leading.natAbs

/-- The text of a decimal. -/
def text (x : Decimal) : List Char :=
  let digits := significantDigits x.coefficient
  let leading := x.leadingExponent
  if digits.isEmpty then ['0', '.', '0']
  else if -4 ≤ leading ∧ leading < 16 then positional digits leading
  else scientific digits leading

end Decimal

namespace Double

private def signed (x : Double) (text : List Char) : List Char :=
  if x.negative then '-' :: text else text

/-- The form for readers, which names what is not finite. -/
def display (x : Double) : List Char :=
  if x.isNaN then "NaN".toList
  else x.signed (if x.isInfinite then "inf".toList else x.shortest.text)

/-- The form for source text, where infinity is a number too large for a double. -/
def literal (x : Double) : List Char :=
  if x.isNaN then "NaN".toList
  else x.signed (if x.isInfinite then "1e999".toList else x.shortest.text)

/-- The literal form of a number, its sign apart. -/
theorem literal_eq {x : Double} (h : x.isNaN = false) :
    x.literal = (if x.negative then ['-'] else []) ++
      if x.isInfinite then "1e999".toList else x.shortest.text := by
  rw [literal, h, signed]
  cases x.negative <;> rfl

end Double

/-! ## Reading -/

namespace Decimal

/-- The decimal that is written by digits before and behind the point and an exponent. -/
def ofDigits (whole fraction : List Char) (exponent : Int) : Decimal where
  coefficient := Nat.ofDigitChars 10 (whole ++ fraction) 0
  exponent := exponent - fraction.length

/-- Digits with an optional point among them and an optional exponent. -/
def ofText? (text : List Char) : Option Decimal := do
  let (whole, rest) := text.span Char.isDigit
  let (fraction, rest) := match rest with
    | '.' :: rest => rest.span Char.isDigit
    | rest => ([], rest)
  guard !(whole.isEmpty && fraction.isEmpty)
  let exponent ← match rest with
    | [] => some 0
    | e :: rest =>
      guard (e == 'e' || e == 'E')
      match rest with
      | '-' :: digits => (- ·) <$> naturalOf? digits
      | '+' :: digits => naturalOf? digits
      | digits => naturalOf? digits
  return ofDigits whole fraction exponent
where
  naturalOf? (digits : List Char) : Option Int := do
    guard (!digits.isEmpty && digits.all Char.isDigit)
    return Nat.ofDigitChars 10 digits 0

end Decimal

namespace Double

/-- A quiet NaN. -/
def nan : Double where
  negative := false
  magnitude := 0x7FF8000000000000#63

/-- Reads a decimal text or one of the names of the display form, with an optional sign. -/
def ofText? (text : List Char) : Option Double :=
  match text with
  | '-' :: text => unsigned true text
  | '+' :: text => unsigned false text
  | text => unsigned false text
where
  unsigned (negative : Bool) (text : List Char) : Option Double :=
    if text = "NaN".toList then some nan
    else if text = "inf".toList then some (ofMagnitude negative infiniteMagnitude)
    else (·.toDouble negative) <$> Decimal.ofText? text

end Double

end GraphQLSyntax
