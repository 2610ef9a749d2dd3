import GraphQLSyntax.Double.Decimal

/-!
# The shortest decimal of a double

Among the decimals that round to a given double, `Double.shortest` is one with the fewest digits,
and of these the one nearest to the exact value. With a given number of digits only the two
decimals next to the exact value need to be looked at: if any decimal of that length rounds to the
double, one of them does.

* `shortest_magnitude`: the shortest decimal reads back as the double it was taken from, if the
  exact one does.
-/

namespace GraphQLSyntax

namespace Double

/-- The exact value of a finite double, a whole number of `10 ^ -1074`. -/
def exact (x : Double) : Decimal where
  coefficient := x.units * Nat.pow 5 1074
  exponent := -1074

/-- Whether a decimal rounds to the absolute value of `x`. -/
def isReadFrom (x : Double) (d : Decimal) : Bool :=
  d.magnitude == x.magnitude.toNat

/-- The decimal nearest to `x` that rounds to it and is a multiple of `10 ^ dropped` in the digits
of the exact value, if there is one. The two neighbours of the exact value are tried, and of two
equally near ones the greater is taken. -/
def nearestDropping? (x : Double) (dropped : Nat) : Option Decimal :=
  let value := x.exact.coefficient
  let step := Nat.pow 10 dropped
  let below : Decimal := ⟨value / step, dropped - 1074⟩
  let above : Decimal := ⟨value / step + 1, dropped - 1074⟩
  let nearer := if 2 * (value % step) < step then [below, above] else [above, below]
  nearer.find? x.isReadFrom

/-- The shortest decimal that rounds to `x`. Seventeen digits tell all doubles apart. -/
def shortest (x : Double) : Decimal :=
  let count := Decimal.digitCount x.exact.coefficient
  ((List.range 17).findSome? fun i => x.nearestDropping? (count - (i + 1))).getD x.exact

theorem isReadFrom_of_nearestDropping? {x : Double} {dropped : Nat} {d : Decimal}
    (h : x.nearestDropping? dropped = some d) : x.isReadFrom d = true :=
  List.find?_some h

/-- The shortest decimal rounds to the double. -/
theorem shortest_magnitude (x : Double) (h : x.exact.magnitude = x.magnitude.toNat) :
    x.shortest.magnitude = x.magnitude.toNat := by
  rw [shortest]
  generalize hs : List.findSome? _ _ = found
  cases found with
  | none => exact h
  | some d =>
    obtain ⟨i, -, hi⟩ := List.exists_of_findSome?_eq_some hs
    simpa [isReadFrom] using isReadFrom_of_nearestDropping? hi

end Double

end GraphQLSyntax
