import GraphQLSyntax.Double.Notation
import GraphQLSyntax.Proofs.Double.Nearest

/-!
# Decimals that read back

A decimal stands for a number, and zeros at the end of its coefficient can be moved to its exponent
without a change. Every finite double is read from its exact value, so by `shortest_magnitude` it is
read from its shortest decimal too.

* `Decimal.magnitude_mul_pow`: the double depends on the number only.
* `Double.magnitude_eq_of_value`: a decimal that is a finite double is read as the double.
* `Double.toDouble_shortest`: so is its shortest decimal.
-/

namespace GraphQLSyntax

/-! ## Fractions -/

theorem magnitudeOfFraction_mul_right (num den k : Nat) (h : 0 < k) :
    magnitudeOfFraction (num * k) (den * k) = magnitudeOfFraction num den := by
  have hscaled : (num * k) <<< 1074 = num <<< 1074 * k := by
    rw [Nat.shiftLeft_eq, Nat.shiftLeft_eq, Nat.mul_right_comm]
  have hden : ∀ n, (den * k) <<< n = den <<< n * k := fun n => by
    rw [Nat.shiftLeft_eq, Nat.shiftLeft_eq, Nat.mul_right_comm]
  simp only [magnitudeOfFraction, hscaled, hden, Nat.mul_div_mul_right _ _ h,
    roundHalfEven_mul_right _ _ _ h]

/-- Equal fractions have the same magnitude. -/
theorem magnitudeOfFraction_congr {num den num' den' : Nat} (hden : 0 < den) (hden' : 0 < den')
    (h : num * den' = num' * den) :
    magnitudeOfFraction num den = magnitudeOfFraction num' den' := by
  rw [← magnitudeOfFraction_mul_right num den den' hden', h, Nat.mul_comm den den',
    magnitudeOfFraction_mul_right num' den' den hden]

/-! ## Decimals -/

namespace Decimal

theorem digitCount_mul_pow {n : Nat} (h : 0 < n) (k : Nat) :
    digitCount (n * Nat.pow 10 k) = digitCount n + k := by
  show digitCount (n * 10 ^ k) = digitCount n + k
  have hpow : 0 < 10 ^ k := Nat.pow_pos (by decide)
  apply Nat.le_antisymm
  · rw [digitCount_le_iff (Nat.add_pos_left (digitCount_pos n) k)]
    show n * 10 ^ k < 10 ^ (digitCount n + k)
    rw [Nat.pow_add]
    exact Nat.mul_lt_mul_of_pos_right ((digitCount_le_iff (digitCount_pos n)).mp (Nat.le_refl _))
      hpow
  · have hlt : n * 10 ^ k < 10 ^ digitCount (n * 10 ^ k) :=
      (digitCount_le_iff (digitCount_pos _)).mp (Nat.le_refl _)
    have hk : k < digitCount (n * 10 ^ k) :=
      (Nat.pow_lt_pow_iff_right (by decide)).mp
        (Nat.lt_of_le_of_lt (Nat.le_mul_of_pos_left _ h) hlt)
    obtain ⟨j, hj⟩ : ∃ j, digitCount (n * 10 ^ k) = j + k :=
      ⟨digitCount (n * 10 ^ k) - k, by omega⟩
    rw [hj] at hlt hk ⊢
    rw [Nat.pow_add] at hlt
    exact Nat.add_le_add_right
      ((digitCount_le_iff (by omega)).mpr (Nat.lt_of_mul_lt_mul_right hlt)) k

/-- Zeros at the end of the coefficient count for the exponent. -/
theorem magnitude_mul_pow (n k : Nat) (e : Int) :
    (⟨n * Nat.pow 10 k, e⟩ : Decimal).magnitude = (⟨n, e + k⟩ : Decimal).magnitude := by
  have hpow : 0 < Nat.pow 10 k := Nat.pow_pos (by decide)
  by_cases hn : n = 0
  · simp [magnitude, hn]
  · have hcount := digitCount_mul_pow (Nat.pos_of_ne_zero hn) k
    have hzero : n * Nat.pow 10 k ≠ 0 := Nat.mul_ne_zero hn (Nat.ne_of_gt hpow)
    have hfraction : magnitudeOfFraction (n * Nat.pow 10 k * Nat.pow 10 e.toNat)
          (Nat.pow 10 (-e).toNat) =
        magnitudeOfFraction (n * Nat.pow 10 (e + k).toNat) (Nat.pow 10 (-(e + k)).toNat) := by
      apply magnitudeOfFraction_congr (Nat.pow_pos (by decide)) (Nat.pow_pos (by decide))
      show n * 10 ^ k * 10 ^ e.toNat * 10 ^ (-(e + k)).toNat =
        n * 10 ^ (e + k).toNat * 10 ^ (-e).toNat
      simp only [Nat.mul_assoc, ← Nat.pow_add]
      congr 2
      omega
    simp only [magnitude, hn, hzero, hcount, false_or]
    rw [show ((digitCount n + k : Nat) : Int) + e = digitCount n + (e + k) by omega]
    split
    · rfl
    · split
      · rfl
      · exact hfraction

end Decimal

/-! ## Doubles -/

namespace Double

private theorem value_mul_pow_five (n k : ℕ) {e : ℤ} (he : e = -k) :
    (⟨n * Nat.pow 5 k, e⟩ : Decimal).value = n * 2 ^ e := by
  subst he
  show ((n * 5 ^ k : ℕ) : ℚ) * 10 ^ (-k : ℤ) = n * 2 ^ (-k : ℤ)
  rw [zpow_neg, zpow_neg, zpow_natCast, zpow_natCast, show (10 : ℚ) = 5 * 2 by norm_num,
    mul_pow, mul_inv, Nat.cast_mul, Nat.cast_pow, Nat.cast_ofNat]
  field_simp

/-- The exact value of a finite double is the double. -/
theorem value_exact (x : Double) : x.exact.value = x.absValue := by
  rw [exact, absValue, unit]
  apply value_mul_pow_five
  rfl

/-- A decimal that is a finite double is read as the double. -/
theorem magnitude_eq_of_value {x : Double} (h : x.magnitude.toNat < infiniteMagnitude) {d : Decimal}
    (hvalue : d.value = x.absValue) : d.magnitude = x.magnitude.toNat := by
  rw [Decimal.magnitude_eq_iff h, hvalue, absValue_div_unit]
  exact roundsTo_unitsOf _

theorem toDouble_eq {x : Double} {d : Decimal} (hnumber : x.isNaN = false)
    (h : d.magnitude = x.magnitude.toNat) : d.toDouble x.negative = x := by
  obtain ⟨negative, magnitude⟩ := x
  simp only [isNaN, decide_eq_false_iff_not, Nat.not_lt] at hnumber
  simp only at h
  simp only [Decimal.toDouble, ofMagnitude, h, Nat.min_eq_left hnumber, BitVec.ofNat_toNat,
    BitVec.setWidth_eq]

/-- The shortest decimal of a finite double reads back as the double. -/
theorem toDouble_shortest {x : Double} (h : x.magnitude.toNat < infiniteMagnitude) :
    x.shortest.toDouble x.negative = x :=
  toDouble_eq (by simp [isNaN]; omega)
    (shortest_magnitude x (magnitude_eq_of_value h x.value_exact))

end Double

end GraphQLSyntax
