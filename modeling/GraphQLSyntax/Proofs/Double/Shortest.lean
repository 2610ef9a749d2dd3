import GraphQLSyntax.Proofs.Token.Number

/-!
# The fewest digits

No decimal of fewer digits than the shortest one of a double is read as the double, and of those of
as many digits none is nearer.

The decimals that are read as a finite double form an interval around its exact value. With `n`
digits the ones next to the exact value are its neighbours, the exact value without its further
digits and the next one up, so a decimal of `n` digits is read as the double only if a neighbour is
that is as near. Seventeen digits are enough, because the neighbours of that many are closer to each
other than doubles are.

* `Decimal.le_below_or_above_le`: no decimal of few digits lies between the neighbours.
* `Double.nearestDropping?_seventeen`: seventeen digits tell all doubles apart.
* `Double.isShortest_shortest`: the shortest decimal is the shortest.
-/

namespace GraphQLSyntax

/-! ## Digits -/

namespace Decimal

theorem significantDigits_mul_ten (n : Nat) : significantDigits (n * 10) = significantDigits n := by
  by_cases hn : n = 0
  · rw [hn]
  · have hdigits : Nat.toDigits 10 (n * 10) = Nat.toDigits 10 n ++ ['0'] := by
      rw [Nat.toDigits_of_base_le (by decide) (by omega), Nat.mul_div_cancel _ (by decide),
        Nat.mul_mod_left]
      rfl
    rw [significantDigits, significantDigits, hdigits, List.reverse_append]
    rfl

theorem significantDigits_mul_pow (n k : Nat) :
    significantDigits (n * 10 ^ k) = significantDigits n := by
  induction k with
  | zero => rw [Nat.pow_zero, Nat.mul_one]
  | succ k ih => rw [Nat.pow_succ, ← Nat.mul_assoc, significantDigits_mul_ten, ih]

/-- A number has at most so many significant digits if it is a number of so many digits but for
zeros at the end. -/
theorem length_significantDigits_le_iff {n count : Nat} :
    (significantDigits n).length ≤ count ↔ ∃ m zeros, n = m * 10 ^ zeros ∧ m < 10 ^ count := by
  constructor
  · intro h
    by_cases hn : n = 0
    · exact ⟨0, 0, hn, Nat.pow_pos (by decide)⟩
    · obtain ⟨zeros, hvalue, hcount, -, -⟩ := exists_coefficient_eq hn
      refine ⟨_, zeros, hvalue, Nat.lt_of_lt_of_le ?_ (Nat.pow_le_pow_right (by decide) h)⟩
      generalize Nat.ofDigitChars 10 (significantDigits n) 0 = m at hvalue
      have hm : 0 < m := by
        refine Nat.pos_of_ne_zero fun hzero => hn ?_
        rw [hvalue, hzero, Nat.zero_mul]
      have hcount' := digitCount_mul_pow hm zeros
      rw [← hvalue, hcount, Nat.add_right_cancel_iff] at hcount'
      rw [hcount']
      exact (digitCount_le_iff (digitCount_pos m)).mp le_rfl
  · rintro ⟨m, zeros, rfl, hm⟩
    rw [significantDigits_mul_pow]
    by_cases hzero : m = 0
    · rw [hzero]
      exact Nat.zero_le count
    · have hcount : 0 < count := by
        refine Nat.pos_of_ne_zero fun hnone => hzero ?_
        rw [hnone] at hm
        omega
      obtain ⟨rest, hdigits⟩ := exists_toDigits_eq m
      have hle := (digitCount_le_iff hcount).mpr hm
      rw [digitCount_eq_length, hdigits, List.length_append] at hle
      omega

theorem length_significantDigits_le {n count : Nat} (h : n < 10 ^ count) :
    (significantDigits n).length ≤ count :=
  length_significantDigits_le_iff.mpr ⟨n, 0, (Nat.mul_one n).symm, h⟩

theorem length_significantDigits_eq_zero_iff {n : Nat} :
    (significantDigits n).length = 0 ↔ n = 0 := by
  rw [← Nat.le_zero, length_significantDigits_le_iff]
  constructor
  · rintro ⟨m, zeros, rfl, hm⟩
    rw [Nat.lt_one_iff.mp hm, Nat.zero_mul]
  · rintro rfl
    exact ⟨0, 0, rfl, by decide⟩

/-- A decimal of few digits is a number of few digits times a power of ten. -/
theorem exists_value_eq {x : Decimal} {count : Nat}
    (h : (significantDigits x.coefficient).length ≤ count) :
    ∃ m : ℕ, m < 10 ^ count ∧ ∃ e : ℤ, x.value = m * 10 ^ e := by
  obtain ⟨m, zeros, hm, hlt⟩ := length_significantDigits_le_iff.mp h
  refine ⟨m, hlt, zeros + x.exponent, ?_⟩
  rw [value, hm, zpow_add₀ (by norm_num), zpow_natCast, ← mul_assoc]
  push_cast
  rfl

theorem value_eq_zero_iff (x : Decimal) : x.value = 0 ↔ x.coefficient = 0 := by
  have hpow : (10 : ℚ) ^ x.exponent ≠ 0 := ne_of_gt (zpow_pos rfl _)
  rw [value, mul_eq_zero, Nat.cast_eq_zero, or_iff_left hpow]

/-! ## Neighbours -/

variable (x : Decimal) (dropped : Nat)

/-- The decimal without so many digits at its end. -/
def below : Decimal :=
  ⟨x.coefficient / Nat.pow 10 dropped, dropped + x.exponent⟩

/-- The next one of as many digits. -/
def above : Decimal :=
  ⟨x.coefficient / Nat.pow 10 dropped + 1, dropped + x.exponent⟩

theorem value_add (n : Nat) :
    (⟨n, dropped + x.exponent⟩ : Decimal).value = (n * 10 ^ dropped : ℕ) * 10 ^ x.exponent := by
  rw [value, zpow_add₀ (by norm_num), zpow_natCast, ← mul_assoc]
  push_cast
  rfl

/-- How far a decimal is from the one below. -/
theorem value_sub_below :
    x.value - (x.below dropped).value =
      (x.coefficient % Nat.pow 10 dropped : ℕ) * 10 ^ x.exponent := by
  have hdiv := Nat.div_add_mod' x.coefficient (10 ^ dropped)
  have hdiv' : ((x.coefficient / 10 ^ dropped * 10 ^ dropped : ℕ) : ℚ) +
      (x.coefficient % 10 ^ dropped : ℕ) = x.coefficient := by exact_mod_cast hdiv
  show x.value - (⟨x.coefficient / 10 ^ dropped, dropped + x.exponent⟩ : Decimal).value =
    (x.coefficient % 10 ^ dropped : ℕ) * 10 ^ x.exponent
  rw [value_add, value, ← hdiv']
  ring

theorem above_sub_below :
    (x.above dropped).value - (x.below dropped).value =
      (Nat.pow 10 dropped : ℕ) * 10 ^ x.exponent := by
  show _ = ((10 ^ dropped : ℕ) : ℚ) * _
  rw [above, below, value_add, value_add]
  push_cast
  ring

theorem below_le : (x.below dropped).value ≤ x.value := by
  rw [← sub_nonneg, value_sub_below]
  positivity

theorem lt_above : x.value < (x.above dropped).value := by
  have hmod : x.coefficient % Nat.pow 10 dropped < Nat.pow 10 dropped :=
    Nat.mod_lt _ (Nat.pow_pos (by decide))
  have hlt : ((x.coefficient % Nat.pow 10 dropped : ℕ) : ℚ) * 10 ^ x.exponent <
      (Nat.pow 10 dropped : ℕ) * 10 ^ x.exponent :=
    mul_lt_mul_of_pos_right (Nat.cast_lt.mpr hmod) (zpow_pos rfl _)
  have hbelow := x.value_sub_below dropped
  have habove := x.above_sub_below dropped
  linarith

theorem abs_sub_below : |x.value - (x.below dropped).value| = x.value - (x.below dropped).value :=
  abs_of_nonneg (sub_nonneg.mpr (x.below_le dropped))

theorem abs_sub_above : |x.value - (x.above dropped).value| = (x.above dropped).value - x.value := by
  rw [abs_sub_comm]
  exact abs_of_nonneg (sub_nonneg.mpr (le_of_lt (x.lt_above dropped)))

/-- The distances from both neighbours add up to the distance of these. -/
theorem abs_sub_add_abs_sub {near far : Decimal}
    (h : [near, far].Perm [x.below dropped, x.above dropped]) :
    |x.value - near.value| + |x.value - far.value| =
      (x.above dropped).value - (x.below dropped).value := by
  have hsum := (h.map fun y => |x.value - y.value|).sum_eq
  simp only [List.map_cons, List.map_nil, List.sum_cons, List.sum_nil, abs_sub_below,
    abs_sub_above] at hsum
  linarith

/-- The digits that are dropped tell which of the neighbours is the nearer. -/
theorem abs_sub_neighbours :
    (2 * (x.coefficient % Nat.pow 10 dropped) ≤ Nat.pow 10 dropped →
      |x.value - (x.below dropped).value| ≤ |x.value - (x.above dropped).value|) ∧
    (Nat.pow 10 dropped ≤ 2 * (x.coefficient % Nat.pow 10 dropped) →
      |x.value - (x.above dropped).value| ≤ |x.value - (x.below dropped).value|) := by
  have hbelow := x.value_sub_below dropped
  have habove := x.above_sub_below dropped
  have hscale : ∀ {m n : ℕ}, m ≤ n → (m : ℚ) * 10 ^ x.exponent ≤ n * 10 ^ x.exponent := fun h =>
    mul_le_mul_of_nonneg_right (Nat.cast_le.mpr h) (le_of_lt (zpow_pos rfl _))
  rw [abs_sub_below, abs_sub_above]
  constructor
  all_goals
    intro hle
    have hle' := hscale hle
    push_cast at hle'
    linarith

/-- What is left of a decimal has the digits that were not dropped. -/
theorem pow_le_below {n : Nat} (hn : 0 < n) (h : n < digitCount x.coefficient) :
    10 ^ (n - 1) ≤ (x.below (digitCount x.coefficient - n)).coefficient := by
  have hzero : x.coefficient ≠ 0 := by
    intro hzero
    have hone : digitCount 0 ≤ 1 := (digitCount_le_iff (by decide)).mpr (by decide)
    rw [hzero] at h
    omega
  have hpow : n - 1 + (digitCount x.coefficient - n) = digitCount x.coefficient - 1 := by omega
  show 10 ^ (n - 1) ≤ x.coefficient / 10 ^ (digitCount x.coefficient - n)
  rw [Nat.le_div_iff_mul_le (Nat.pow_pos (by decide)), ← Nat.pow_add, hpow]
  exact le_of_digitCount hzero

theorem below_lt_pow (n : Nat) :
    (x.below (digitCount x.coefficient - n)).coefficient < 10 ^ n := by
  have hlt : x.coefficient < 10 ^ digitCount x.coefficient :=
    (digitCount_le_iff (digitCount_pos _)).mp le_rfl
  show x.coefficient / 10 ^ (digitCount x.coefficient - n) < 10 ^ n
  rw [Nat.div_lt_iff_lt_mul (Nat.pow_pos (by decide)), ← Nat.pow_add]
  exact Nat.lt_of_lt_of_le hlt (Nat.pow_le_pow_right (by decide) (by omega))

/-- Both neighbours have the digits that were not dropped, and no others. -/
theorem length_significantDigits_neighbour {n : Nat} (hn : 0 < n) {y : Decimal}
    (h : y ∈ [x.below (digitCount x.coefficient - n), x.above (digitCount x.coefficient - n)]) :
    (significantDigits y.coefficient).length ≤ n := by
  have hlt := x.below_lt_pow n
  simp only [List.mem_cons, List.not_mem_nil, or_false] at h
  obtain rfl | rfl := h
  · exact length_significantDigits_le hlt
  · obtain heq | hlt := Nat.eq_or_lt_of_le (Nat.succ_le_of_lt hlt)
    · exact length_significantDigits_le_iff.mpr
        ⟨1, n, heq.trans (Nat.one_mul _).symm, Nat.one_lt_pow (by omega) (by decide)⟩
    · exact length_significantDigits_le hlt

/-- The distance of the neighbours is what their last digit counts. -/
theorem pow_mul_le_value {n : Nat} (hn : 0 < n) (h : n < digitCount x.coefficient) :
    10 ^ (n - 1) * ((x.above (digitCount x.coefficient - n)).value -
      (x.below (digitCount x.coefficient - n)).value) ≤ x.value := by
  have hpow : ((10 ^ (n - 1) : ℕ) : ℚ) ≤
      (x.below (digitCount x.coefficient - n)).coefficient := Nat.cast_le.mpr (x.pow_le_below hn h)
  have hbelow := x.below_le (digitCount x.coefficient - n)
  generalize digitCount x.coefficient - n = dropped at *
  have hstep : (0 : ℚ) ≤ (10 ^ dropped : ℕ) * 10 ^ x.exponent := by positivity
  calc 10 ^ (n - 1) * ((x.above dropped).value - (x.below dropped).value)
      = (10 ^ (n - 1) : ℕ) * ((10 ^ dropped : ℕ) * 10 ^ x.exponent) := by
        rw [x.above_sub_below, Nat.cast_pow]
        rfl
    _ ≤ (x.below dropped).coefficient * ((10 ^ dropped : ℕ) * 10 ^ x.exponent) :=
        mul_le_mul_of_nonneg_right hpow hstep
    _ = (x.below dropped).value := by
        rw [← mul_assoc, ← Nat.cast_mul, ← value_add]
        rfl
    _ ≤ x.value := hbelow

variable {x}

/-- A decimal of few digits lies outside of the two neighbours of as many digits. -/
theorem le_below_or_above_le {y : Decimal} {n : Nat} (hn : 0 < n)
    (h : n < digitCount x.coefficient) (hy : (significantDigits y.coefficient).length ≤ n) :
    y.value ≤ (x.below (digitCount x.coefficient - n)).value ∨
      (x.above (digitCount x.coefficient - n)).value ≤ y.value := by
  have hpow := x.pow_le_below hn h
  obtain ⟨m, hlt, e, hvalue⟩ := exists_value_eq hy
  generalize digitCount x.coefficient - n = dropped at *
  rw [hvalue]
  have hten : ∀ e : ℤ, (0 : ℚ) < 10 ^ e := fun e => zpow_pos rfl e
  by_cases hgrid : dropped + x.exponent ≤ e
  · -- A multiple of what the last digit of the neighbours counts.
    obtain ⟨k, rfl⟩ := Int.le.dest hgrid
    have hmultiple : (m : ℚ) * 10 ^ (dropped + x.exponent + k) =
        (m * 10 ^ k : ℕ) * 10 ^ (dropped + x.exponent) := by
      rw [zpow_add₀ (by norm_num), zpow_natCast]
      push_cast
      ring
    rw [hmultiple]
    obtain hle | hlt := le_or_gt (m * 10 ^ k) (x.below dropped).coefficient
    · exact .inl (mul_le_mul_of_nonneg_right (Nat.cast_le.mpr hle) (le_of_lt (hten _)))
    · exact .inr (mul_le_mul_of_nonneg_right (Nat.cast_le.mpr hlt) (le_of_lt (hten _)))
  · -- With a finer last digit it is below what the first digit of the neighbours counts.
    left
    have hpow' : (10 : ℚ) ^ (n - 1) ≤ (x.below dropped).coefficient := by exact_mod_cast hpow
    have hlt' : (m : ℚ) ≤ 10 ^ n := by exact_mod_cast le_of_lt hlt
    calc (m : ℚ) * 10 ^ e
        ≤ 10 ^ n * 10 ^ (dropped + x.exponent - 1) := by
          gcongr
          · norm_num
          · omega
      _ = 10 ^ (n - 1) * 10 ^ (dropped + x.exponent) := by
          rw [← zpow_natCast, ← zpow_natCast, ← zpow_add₀ (by norm_num),
            ← zpow_add₀ (by norm_num)]
          congr 1
          omega
      _ ≤ (x.below dropped).value :=
          mul_le_mul_of_nonneg_right hpow' (le_of_lt (hten _))

end Decimal

/-! ## Rounding intervals -/

namespace Double

variable {x : Double}

/-- What lies between a finite double and a decimal that is read as the double is read as it too. -/
theorem isReadFrom_of_between (hfinite : x.magnitude.toNat < infiniteMagnitude) {d e : Decimal}
    (hd : x.isReadFrom d = true)
    (h : d.value ≤ e.value ∧ e.value ≤ x.absValue ∨ x.absValue ≤ e.value ∧ e.value ≤ d.value) :
    x.isReadFrom e = true := by
  have hdiv : ∀ {a b : ℚ}, a ≤ b → a / unit ≤ b / unit := fun h =>
    div_le_div_of_nonneg_right h (le_of_lt unit_pos)
  simp only [isReadFrom, beq_iff_eq, Decimal.magnitude_eq_iff hfinite] at hd ⊢
  have hx := roundsTo_unitsOf x.magnitude.toNat
  rw [← absValue_div_unit] at hx
  obtain ⟨hle, hle'⟩ | ⟨hle, hle'⟩ := h
  · exact hd.of_between hx (hdiv hle) (hdiv hle')
  · exact hx.of_between hd (hdiv hle) (hdiv hle')

/-- Sixteen digits that agree are enough to be read as the double. -/
theorem isReadFrom_of_close (hfinite : x.magnitude.toNat < infiniteMagnitude) {d : Decimal}
    (h : 2 * 10 ^ 16 * |x.absValue - d.value| ≤ x.absValue) : x.isReadFrom d = true := by
  rw [isReadFrom, beq_iff_eq, Decimal.magnitude_eq_iff hfinite]
  apply roundsTo_of_close
  rw [abs_sub_comm, abs_sub_absValue, ← mul_assoc, ← le_div_iff₀ unit_pos, absValue_div_unit] at h
  exact h

/-! ## The search -/

theorem nearestDropping?_eq (x : Double) (dropped : Nat) :
    x.nearestDropping? dropped =
      (if 2 * (x.exact.coefficient % Nat.pow 10 dropped) < Nat.pow 10 dropped
        then [x.exact.below dropped, x.exact.above dropped]
        else [x.exact.above dropped, x.exact.below dropped]).find? x.isReadFrom :=
  rfl

/-- The neighbours are tried one after the other, the nearer first. -/
theorem exists_neighbours (x : Double) (dropped : Nat) :
    ∃ near far, [near, far].Perm [x.exact.below dropped, x.exact.above dropped] ∧
      |x.absValue - near.value| ≤ |x.absValue - far.value| ∧
      x.nearestDropping? dropped = [near, far].find? x.isReadFrom := by
  obtain ⟨hbelow, habove⟩ := x.exact.abs_sub_neighbours dropped
  rw [value_exact] at hbelow habove
  rw [nearestDropping?_eq]
  split
  case isTrue hlt => exact ⟨_, _, .refl _, hbelow (Nat.le_of_lt hlt), rfl⟩
  case isFalse hle => exact ⟨_, _, .swap _ _ _, habove (Nat.not_lt.mp hle), rfl⟩

/-- The decimal that is found is one of the neighbours, and the nearest of those that are read as
the double. -/
theorem of_nearestDropping?_eq_some {dropped : Nat} {d : Decimal}
    (h : x.nearestDropping? dropped = some d) :
    d ∈ [x.exact.below dropped, x.exact.above dropped] ∧
      ∀ e ∈ [x.exact.below dropped, x.exact.above dropped], x.isReadFrom e = true →
        |x.absValue - d.value| ≤ |x.absValue - e.value| := by
  obtain ⟨near, far, hperm, hle, hfind⟩ := x.exists_neighbours dropped
  rw [hfind] at h
  refine ⟨hperm.mem_iff.mp (List.mem_of_find?_eq_some h), fun e he hread => ?_⟩
  rw [← hperm.mem_iff] at he
  simp only [List.mem_cons, List.not_mem_nil, or_false] at he
  cases hnear : x.isReadFrom near with
  | true =>
    rw [List.find?_cons_of_pos hnear] at h
    obtain rfl := Option.some.inj h
    obtain rfl | rfl := he
    · exact le_rfl
    · exact hle
  | false =>
    rw [List.find?_cons_of_neg (by simp [hnear])] at h
    have hd : d = far := by simpa using List.mem_of_find?_eq_some h
    obtain rfl | rfl := he
    · simp [hnear] at hread
    · rw [hd]

/-- If a decimal of so many digits is read as the double, then so is a neighbour that is as near. -/
theorem exists_neighbour (hfinite : x.magnitude.toNat < infiniteMagnitude) {n : Nat} (hn : 0 < n)
    {y : Decimal} (hread : x.isReadFrom y = true)
    (hdigits : (Decimal.significantDigits y.coefficient).length ≤ n) :
    ∃ e ∈ [x.exact.below (Decimal.digitCount x.exact.coefficient - n),
        x.exact.above (Decimal.digitCount x.exact.coefficient - n)],
      x.isReadFrom e = true ∧ |x.absValue - e.value| ≤ |x.absValue - y.value| := by
  by_cases hcount : n < Decimal.digitCount x.exact.coefficient
  · have hbelow := x.exact.below_le (Decimal.digitCount x.exact.coefficient - n)
    have habove := x.exact.lt_above (Decimal.digitCount x.exact.coefficient - n)
    have hsub := x.exact.abs_sub_below (Decimal.digitCount x.exact.coefficient - n)
    have hsub' := x.exact.abs_sub_above (Decimal.digitCount x.exact.coefficient - n)
    rw [value_exact] at hbelow habove hsub hsub'
    obtain hle | hle := Decimal.le_below_or_above_le hn hcount hdigits
    · refine ⟨_, List.mem_cons_self, isReadFrom_of_between hfinite hread (.inl ⟨hle, hbelow⟩), ?_⟩
      rw [hsub]
      exact le_trans (by linarith) (le_abs_self _)
    · refine ⟨_, List.mem_cons_of_mem _ List.mem_cons_self,
        isReadFrom_of_between hfinite hread (.inr ⟨le_of_lt habove, hle⟩), ?_⟩
      rw [hsub', abs_sub_comm]
      exact le_trans (by linarith) (le_abs_self _)
  · -- All digits of the exact value are kept.
    rw [Nat.sub_eq_zero_of_le (Nat.not_lt.mp hcount)]
    have hexact : (x.exact.below 0).value = x.absValue := by
      have hsub := x.exact.value_sub_below 0
      rw [show Nat.pow 10 0 = 1 by rfl, Nat.mod_one, Nat.cast_zero, zero_mul, value_exact] at hsub
      linarith
    refine ⟨_, List.mem_cons_self, ?_, ?_⟩
    · exact beq_iff_eq.mpr (magnitude_eq_of_value hfinite hexact)
    · rw [hexact, sub_self, abs_zero]
      exact abs_nonneg _

theorem of_nearestDropping?_eq_none {dropped : Nat} (h : x.nearestDropping? dropped = none)
    {e : Decimal} (he : e ∈ [x.exact.below dropped, x.exact.above dropped]) :
    x.isReadFrom e = false := by
  obtain ⟨near, far, hperm, -, hfind⟩ := x.exists_neighbours dropped
  rw [hfind, List.find?_eq_none] at h
  exact Bool.eq_false_iff.mpr (h e (hperm.mem_iff.mpr he))

/-- Seventeen digits tell all doubles apart. -/
theorem nearestDropping?_seventeen (hfinite : x.magnitude.toNat < infiniteMagnitude) :
    x.nearestDropping? (Decimal.digitCount x.exact.coefficient - 17) ≠ none := by
  intro hnone
  have hread := fun e => of_nearestDropping?_eq_none (e := e) hnone
  -- Of more digits one neighbour is close enough to be read back. Of fewer nothing is dropped.
  by_cases hcount : 17 < Decimal.digitCount x.exact.coefficient
  · have hdistance := x.exact.pow_mul_le_value (by decide) hcount
    generalize Decimal.digitCount x.exact.coefficient - 17 = dropped at *
    obtain ⟨near, far, hperm, hle, -⟩ := x.exists_neighbours dropped
    have hsum := x.exact.abs_sub_add_abs_sub dropped hperm
    rw [value_exact] at hsum
    have hclose : 2 * 10 ^ 16 * |x.absValue - near.value| ≤ x.absValue := by
      rw [value_exact, ← hsum] at hdistance
      norm_num at hdistance ⊢
      linarith
    have hnear := hread near (hperm.mem_iff.mp List.mem_cons_self)
    rw [isReadFrom_of_close hfinite hclose] at hnear
    cases hnear
  · have hdigits : (Decimal.significantDigits x.exact.coefficient).length ≤ 17 :=
      Decimal.length_significantDigits_le
        ((Decimal.digitCount_le_iff (by decide)).mp (Nat.not_lt.mp hcount))
    obtain ⟨e, he, hsome, -⟩ := exists_neighbour hfinite (by decide)
      (beq_iff_eq.mpr (magnitude_eq_of_value hfinite x.value_exact)) hdigits
    rw [hread e he] at hsome
    cases hsome

/-- A decimal is the shortest for a double if it is read as the double with as few digits as may be,
and is the nearest of the decimals with which that is so. -/
structure IsShortest (x : Double) (d : Decimal) : Prop where
  reads : d.magnitude = x.magnitude.toNat
  fewest : ∀ e : Decimal, e.magnitude = x.magnitude.toNat →
    (Decimal.significantDigits d.coefficient).length ≤
      (Decimal.significantDigits e.coefficient).length
  nearest : ∀ e : Decimal, e.magnitude = x.magnitude.toNat →
    (Decimal.significantDigits e.coefficient).length =
      (Decimal.significantDigits d.coefficient).length →
    |x.absValue - d.value| ≤ |x.absValue - e.value|

/-- The search takes the least number of digits with which it finds something. -/
theorem exists_nearestDropping?_eq_shortest (hfinite : x.magnitude.toNat < infiniteMagnitude) :
    ∃ n, 0 < n ∧
      x.nearestDropping? (Decimal.digitCount x.exact.coefficient - n) = some x.shortest ∧
      ∀ m, 0 < m → m < n →
        x.nearestDropping? (Decimal.digitCount x.exact.coefficient - m) = none := by
  have hseventeen := nearestDropping?_seventeen hfinite
  rw [shortest]
  generalize Decimal.digitCount x.exact.coefficient = count at *
  cases hfound : (List.range 17).findSome? fun i => x.nearestDropping? (count - (i + 1)) with
  | none =>
    rw [List.findSome?_eq_none_iff] at hfound
    exact absurd (hfound 16 (by decide)) hseventeen
  | some d =>
    obtain ⟨earlier, i, later, hsplit, hsome, hnone⟩ := List.findSome?_eq_some_iff.mp hfound
    rw [List.range_eq_range'] at hsplit
    obtain ⟨k, -, rfl, hlater⟩ := List.range'_eq_append_iff.mp hsplit
    obtain ⟨rfl, -⟩ := List.range'_eq_cons_iff.mp hlater.symm
    refine ⟨_, Nat.succ_pos _, hsome, fun m hm hlt => ?_⟩
    obtain ⟨j, rfl⟩ : ∃ j, m = j + 1 := ⟨m - 1, by omega⟩
    exact hnone j (List.mem_range'_1.mpr (by omega))

/-- Only zero is read from no digits. -/
theorem absValue_eq_zero {d : Decimal} (hread : x.isReadFrom d = true)
    (hzero : d.coefficient = 0) : x.absValue = 0 := by
  rw [isReadFrom, beq_iff_eq, Decimal.magnitude, if_pos (.inl hzero)] at hread
  rw [absValue, units_eq, ← hread, show unitsOf 0 = 0 by decide, Nat.cast_zero, zero_mul]

/-- **The shortest decimal is the shortest**, and of the shortest the nearest. -/
theorem isShortest_shortest (hfinite : x.magnitude.toNat < infiniteMagnitude) :
    x.IsShortest x.shortest := by
  obtain ⟨n, hn, hsome, hnone⟩ := exists_nearestDropping?_eq_shortest hfinite
  obtain ⟨hneighbour, hnearest⟩ := of_nearestDropping?_eq_some hsome
  have hdigits := x.exact.length_significantDigits_neighbour hn hneighbour
  have hclosest : ∀ e : Decimal, x.isReadFrom e = true →
      (Decimal.significantDigits e.coefficient).length ≤ n →
      |x.absValue - x.shortest.value| ≤ |x.absValue - e.value| := by
    intro e hread hlength
    obtain ⟨y, hy, hread, hle⟩ := exists_neighbour hfinite hn hread hlength
    exact le_trans (hnearest y hy hread) hle
  refine ⟨beq_iff_eq.mp (isReadFrom_of_nearestDropping? hsome), fun e he => ?_,
    fun e he hlength => hclosest e (beq_iff_eq.mpr he) (hlength.trans_le hdigits)⟩
  have hread : x.isReadFrom e = true := beq_iff_eq.mpr he
  obtain hle | hlt := le_or_gt n (Decimal.significantDigits e.coefficient).length
  · exact le_trans hdigits hle
  · obtain hlength | hlength := Nat.eq_zero_or_pos (Decimal.significantDigits e.coefficient).length
    · -- Nothing but zero has no digits.
      have hclose := hclosest e hread (by omega)
      rw [Decimal.length_significantDigits_eq_zero_iff] at hlength
      rw [absValue_eq_zero hread hlength, e.value_eq_zero_iff.mpr hlength, sub_self, abs_zero,
        abs_nonpos_iff, zero_sub, neg_eq_zero, Decimal.value_eq_zero_iff,
        ← Decimal.length_significantDigits_eq_zero_iff] at hclose
      rw [hclose]
      exact Nat.zero_le _
    · obtain ⟨y, hy, hread, -⟩ := exists_neighbour hfinite hlength hread le_rfl
      rw [of_nearestDropping?_eq_none (hnone _ hlength hlt) hy] at hread
      cases hread

end Double

end GraphQLSyntax
