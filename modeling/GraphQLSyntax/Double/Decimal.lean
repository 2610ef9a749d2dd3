import GraphQLSyntax.Double.Basic

/-!
# Decimals and their doubles

A `Decimal` is a natural number times a power of ten. `Decimal.magnitude` rounds it to the nearest
double, a half to the even neighbour; what is too large becomes infinity and what is too small
zero, for exponents of any size.

* `roundHalfEven_mul_right`: rounding depends on the quotient only.
* `digitCount_le_iff`: a number has at most `k` digits if it is below `10 ^ k`.
-/

namespace GraphQLSyntax

/-- The number `coefficient * 10 ^ exponent`. -/
structure Decimal where
  coefficient : Nat
  exponent : Int
deriving DecidableEq, Repr

/-- The natural number nearest to `num / den`; of two that are equally near, the even one. -/
def roundHalfEven (num den : Nat) : Nat :=
  let quotient := num / den
  let twice := 2 * (num % den)
  if den < twice ∨ (twice = den ∧ quotient % 2 = 1) then quotient + 1 else quotient

theorem roundHalfEven_mul_right (num den k : Nat) (h : 0 < k) :
    roundHalfEven (num * k) (den * k) = roundHalfEven num den := by
  have lt : den * k < 2 * (num % den * k) ↔ den < 2 * (num % den) := by
    rw [← Nat.mul_assoc]; exact Nat.mul_lt_mul_right h
  have eq : 2 * (num % den * k) = den * k ↔ 2 * (num % den) = den := by
    rw [← Nat.mul_assoc]; exact Nat.mul_left_inj (by omega)
  simp only [roundHalfEven, Nat.mul_div_mul_right _ _ h, Nat.mul_mod_mul_right, lt, eq]

/-- The magnitude of the double nearest to `num / den`. In units of `2 ^ -1074` the quotient is
rounded to 53 binary digits; one of fewer digits is rounded to a whole number of units. -/
def magnitudeOfFraction (num den : Nat) : Nat :=
  let scaled := num <<< 1074
  let doublings := (scaled / den).log2 - 52
  doublings * Double.binade + roundHalfEven scaled (den <<< doublings)

namespace Decimal

/-- How many decimal digits a number has. They are counted by sixteen, because the numbers here
have hundreds of them. -/
def digitCount (n : Nat) : Nat :=
  if n < 10000000000000000 then (Nat.toDigits 10 n).length
  else 16 + digitCount (n / 10000000000000000)
termination_by n
decreasing_by exact Nat.div_lt_self (by omega) (by decide)

theorem digitCount_pos (n : Nat) : 0 < digitCount n := by
  unfold digitCount
  split
  · exact Nat.length_toDigits_pos
  · omega

theorem digitCount_le_iff {n k : Nat} (h : 0 < k) : digitCount n ≤ k ↔ n < Nat.pow 10 k := by
  show digitCount n ≤ k ↔ n < 10 ^ k
  fun_induction digitCount n generalizing k with
  | case1 n hn => exact Nat.length_toDigits_le_iff (by decide) h
  | case2 n hn ih =>
    by_cases hk : k ≤ 16
    · have := digitCount_pos (n / 10000000000000000)
      have := Nat.pow_le_pow_right (show 0 < 10 by decide) hk
      omega
    · obtain ⟨j, rfl⟩ : ∃ j, k = j + 16 := ⟨k - 16, by omega⟩
      have hj := ih (show 0 < j by omega)
      rw [Nat.div_lt_iff_lt_mul (by decide)] at hj
      rw [Nat.pow_add]
      omega

/-- The magnitude of the double nearest to the decimal. A number of at least `10 ^ 310` is beyond
the largest double, and one below `10 ^ -330` is nearer to zero than to the least; that bounds the
powers of ten that are computed. -/
def magnitude (x : Decimal) : Nat :=
  let leading := digitCount x.coefficient + x.exponent
  if x.coefficient = 0 ∨ leading < -330 then 0
  else if 310 < leading then Double.infiniteMagnitude
  else
    magnitudeOfFraction (x.coefficient * Nat.pow 10 x.exponent.toNat)
      (Nat.pow 10 (-x.exponent).toNat)

/-- The nearest double of a decimal with a sign. -/
def toDouble (negative : Bool) (x : Decimal) : Double :=
  .ofMagnitude negative x.magnitude

end Decimal

end GraphQLSyntax
