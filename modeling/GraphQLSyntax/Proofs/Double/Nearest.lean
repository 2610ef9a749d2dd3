import GraphQLSyntax.Double.Decimal
import Mathlib.Algebra.Order.Field.Power
import Mathlib.Tactic.FieldSimp
import Mathlib.Tactic.Linarith
import Mathlib.Tactic.Positivity
import Mathlib.Tactic.Ring

/-!
# The nearest double

Decimals are read as the nearest double, and one half way between two as the one of even magnitude.
Infinity takes part as if it were the next power of two, so a decimal is read as infinity from half
a step above the greatest finite number on.

Numbers are measured in units of the least positive double, `2 ^ -1074`.

* `Double.unitsOf_succ`: the step from one magnitude to the next.
* `Double.roundsTo_of_quotient`: a quotient is rounded to the magnitude it is closest to.
* `Double.RoundsTo.mono`: rounding keeps the order.
* `Decimal.magnitude_eq_iff`: which decimals are read as a finite double.
* `Double.isNearest_toDouble`: decimals are read as the nearest double.
-/

namespace GraphQLSyntax

namespace Double

/-! ## Steps -/

/-- The number with this magnitude, in units of the least positive one. Infinity counts as the next
power of two. -/
def unitsOf (magnitude : Nat) : Nat :=
  (magnitude - (magnitude / binade - 1) * binade) <<< (magnitude / binade - 1)

theorem units_eq (x : Double) : x.units = unitsOf x.magnitude.toNat :=
  rfl

/-- A number of so many steps, each doubled so many times. -/
theorem unitsOf_add {doublings steps : Nat} (hsteps : steps ≤ 2 * binade)
    (h : doublings = 0 ∨ binade ≤ steps) :
    unitsOf (doublings * binade + steps) = steps * 2 ^ doublings := by
  rw [unitsOf, Nat.shiftLeft_eq]
  by_cases hlast : steps = 2 * binade
  · have hquotient : (doublings * binade + steps) / binade - 1 = doublings + 1 := by
      simp only [binade] at *
      omega
    have hrest : doublings * binade + steps - (doublings + 1) * binade = binade := by
      rw [hlast, Nat.add_mul]
      omega
    rw [hquotient, hrest, hlast, Nat.pow_succ]
    ring
  · have hquotient : (doublings * binade + steps) / binade - 1 = doublings := by
      simp only [binade] at *
      omega
    rw [hquotient, Nat.add_sub_cancel_left]

/-- Each magnitude is so many steps, doubled so many times. -/
theorem exists_steps (m : Nat) : ∃ steps < 2 * binade,
    m = (m / binade - 1) * binade + steps ∧ (m / binade - 1 = 0 ∨ binade ≤ steps) := by
  refine ⟨m - (m / binade - 1) * binade, ?_, ?_, ?_⟩
  all_goals
    simp only [binade]
    omega

/-- From one magnitude to the next it is a step, and the steps double with each further binade. -/
theorem unitsOf_succ (m : Nat) : unitsOf (m + 1) = unitsOf m + 2 ^ (m / binade - 1) := by
  obtain ⟨steps, hlt, hm, hcase⟩ := exists_steps m
  generalize m / binade - 1 = doublings at *
  subst hm
  rw [unitsOf_add (Nat.le_of_lt hlt) hcase, Nat.add_assoc,
    unitsOf_add hlt (hcase.imp_right Nat.le_succ_of_le)]
  exact Nat.succ_mul _ _

/-- The next number is at least a step away. -/
theorem unitsOf_add_le_succ {doublings steps : Nat} (h : doublings = 0 ∨ binade ≤ steps) :
    unitsOf (doublings * binade + steps) + 2 ^ doublings ≤
      unitsOf (doublings * binade + steps + 1) := by
  rw [unitsOf_succ]
  refine Nat.add_le_add_left (Nat.pow_le_pow_right (by decide) ?_) _
  simp only [binade] at *
  omega

/-- Past the least number of its binade, a number is just a step from the one before. -/
theorem unitsOf_add_of_succ {doublings steps k : Nat} (hsteps : steps ≤ 2 * binade)
    (h : doublings = 0 ∨ binade < steps) (hk : k + 1 = doublings * binade + steps) :
    unitsOf k + 2 ^ doublings = unitsOf (doublings * binade + steps) := by
  obtain ⟨rest, rfl⟩ : ∃ rest, steps = rest + 1 := by
    refine ⟨steps - 1, ?_⟩
    simp only [binade] at *
    omega
  obtain rfl : k = doublings * binade + rest := by omega
  rw [unitsOf_add (Nat.le_of_succ_le hsteps) (h.imp_right Nat.le_of_lt_succ),
    unitsOf_add hsteps (h.imp_right Nat.le_of_lt)]
  exact (Nat.succ_mul _ _).symm

theorem unitsOf_strictMono : StrictMono unitsOf :=
  strictMono_nat_of_lt_succ fun m => by
    rw [unitsOf_succ]
    exact Nat.lt_add_of_pos_right (Nat.two_pow_pos _)

theorem cast_unitsOf_mono {j k : Nat} (h : j ≤ k) : (unitsOf j : ℚ) ≤ unitsOf k :=
  Nat.cast_le.mpr (unitsOf_strictMono.monotone h)

theorem cast_unitsOf_strictMono {j k : Nat} (h : j < k) : (unitsOf j : ℚ) < unitsOf k :=
  Nat.cast_lt.mpr (unitsOf_strictMono h)

/-- A number is at most `2 ^ 53` steps. -/
theorem unitsOf_succ_le (m : Nat) : unitsOf (m + 1) ≤ 2 ^ 53 * 2 ^ (m / binade - 1) := by
  obtain ⟨steps, hlt, hm, hcase⟩ := exists_steps m
  generalize m / binade - 1 = doublings at *
  subst hm
  rw [Nat.add_assoc, unitsOf_add hlt (hcase.imp_right Nat.le_succ_of_le)]
  exact Nat.mul_le_mul_right _ hlt

end Double

/-! ## Quotients -/

/-- A number is rounded to a natural number by at most a half, and by a half only to an even one. -/
structure RoundsToNat (value : ℚ) (n : Nat) : Prop where
  above : 2 * value ≤ 2 * n + 1
  below : 2 * n ≤ 2 * value + 1
  even : 2 * value = 2 * n + 1 ∨ 2 * n = 2 * value + 1 → n % 2 = 0

theorem roundsToNat_roundHalfEven (num : Nat) {den : Nat} (hden : 0 < den) :
    RoundsToNat (num / den) (roundHalfEven num den) := by
  have hden' : (0 : ℚ) < den := Nat.cast_pos.mpr hden
  have hvalue : (num : ℚ) / den = (num / den : ℕ) + (num % den : ℕ) / den := by
    have hdiv : ((den * (num / den) + num % den : ℕ) : ℚ) = num := by rw [Nat.div_add_mod]
    push_cast at hdiv
    field_simp
    exact hdiv.symm
  have hle : 1 ≤ 2 * (((num % den : ℕ) : ℚ) / den) ↔ den ≤ 2 * (num % den) := by
    rw [← mul_div_assoc, one_le_div hden']
    exact_mod_cast Iff.rfl
  have hge : 2 * (((num % den : ℕ) : ℚ) / den) ≤ 1 ↔ 2 * (num % den) ≤ den := by
    rw [← mul_div_assoc, div_le_one hden']
    exact_mod_cast Iff.rfl
  have hnonneg : 0 ≤ ((num % den : ℕ) : ℚ) / den := by positivity
  have hlt : ((num % den : ℕ) : ℚ) / den < 1 :=
    (div_lt_one hden').mpr (Nat.cast_lt.mpr (Nat.mod_lt num hden))
  rw [hvalue]
  simp only [roundHalfEven]
  generalize ((num % den : ℕ) : ℚ) / den = part at *
  -- Rounded up, the part is a half or more, and otherwise a half or less. A half itself goes to
  -- the even number.
  split
  case isTrue h =>
    have hpart := hle.mpr (by omega)
    refine ⟨by push_cast; linarith, by push_cast; linarith, ?_⟩
    rintro (heq | heq)
    all_goals
      push_cast at heq
    · linarith
    · have := hge.mp (by linarith)
      omega
  case isFalse h =>
    have hpart := hge.mpr (by omega)
    refine ⟨by linarith, by linarith, ?_⟩
    rintro (heq | heq)
    · have := hle.mp (by linarith)
      omega
    · linarith

namespace Double

/-! ## Rounding -/

/-- A number of units lies within half a step of the magnitude, and half a step away only if that is
even. -/
structure RoundsTo (value : ℚ) (m : Nat) : Prop where
  above : 2 * value ≤ unitsOf m + unitsOf (m + 1)
  below : ∀ k, k + 1 = m → unitsOf k + unitsOf m ≤ 2 * value
  even : (2 * value = unitsOf m + unitsOf (m + 1) ∨
    ∃ k, k + 1 = m ∧ unitsOf k + unitsOf m = 2 * value) → m % 2 = 0

section Steps

variable {value : ℚ} {doublings steps : Nat}

private theorem steps_le (h : RoundsToNat value steps) (hlt : value < 2 ^ 53) :
    steps ≤ 2 * binade := by
  have : (2 * steps : ℚ) < (2 ^ 54 + 1 : ℕ) := by
    push_cast
    linarith [h.below]
  have : 2 * steps < 2 ^ 54 + 1 := by exact_mod_cast this
  simp only [binade]
  omega

private theorem binade_le (h : RoundsToNat value steps) (hle : 2 ^ 52 ≤ value) :
    binade ≤ steps := by
  have : ((2 ^ 53 : ℕ) : ℚ) ≤ (2 * steps + 1 : ℕ) := by
    push_cast
    linarith [h.above]
  have : 2 ^ 53 ≤ 2 * steps + 1 := by exact_mod_cast this
  simp only [binade]
  omega

/-- The step below is as long as the one above, except from the least number of its binade, and
that number is rounded to from above only. -/
private theorem previous_step (hcase : doublings = 0 ∨ 2 ^ 52 ≤ value) (hsteps : steps ≤ 2 * binade)
    (hnormal : doublings = 0 ∨ binade ≤ steps) {k : Nat} (hk : k + 1 = doublings * binade + steps) :
    (unitsOf k : ℚ) + 2 ^ doublings = unitsOf (doublings * binade + steps) ∨
      (unitsOf k : ℚ) < unitsOf (doublings * binade + steps) ∧ steps ≤ value := by
  by_cases hfirst : doublings = 0 ∨ binade < steps
  · left
    exact_mod_cast unitsOf_add_of_succ hsteps hfirst hk
  · right
    refine ⟨cast_unitsOf_strictMono (by omega), ?_⟩
    have hbinade : steps = 2 ^ 52 := by
      simp only [binade] at *
      omega
    rw [hbinade]
    exact_mod_cast hcase.resolve_left fun hzero => hfirst (.inl hzero)

/-- A number that is rounded to so many steps, each doubled so many times. -/
private theorem roundsTo_of_steps (hlt : value < 2 ^ 53) (hcase : doublings = 0 ∨ 2 ^ 52 ≤ value)
    (h : RoundsToNat value steps) :
    RoundsTo (value * 2 ^ doublings) (doublings * binade + steps) := by
  have hpow : (0 : ℚ) < 2 ^ doublings := pow_pos rfl _
  have hsteps := steps_le h hlt
  have hnormal : doublings = 0 ∨ binade ≤ steps := hcase.imp_right (binade_le h)
  have hunits : (unitsOf (doublings * binade + steps) : ℚ) = steps * 2 ^ doublings := by
    rw [unitsOf_add hsteps hnormal]
    push_cast
    rfl
  have hnext : (unitsOf (doublings * binade + steps) : ℚ) + 2 ^ doublings ≤
      unitsOf (doublings * binade + steps + 1) := by
    exact_mod_cast unitsOf_add_le_succ hnormal
  have hprevious := fun k => previous_step (k := k) hcase hsteps hnormal
  have heven : steps % 2 = 0 → (doublings * binade + steps) % 2 = 0 := by
    simp only [binade]
    omega
  have habove := mul_le_mul_of_nonneg_right h.above (le_of_lt hpow)
  have hbelow := mul_le_mul_of_nonneg_right h.below (le_of_lt hpow)
  rw [hunits] at hnext hprevious
  constructor
  case above =>
    rw [hunits]
    linarith
  case below =>
    intro k hk
    rw [hunits]
    obtain hgap | ⟨hgap, hle⟩ := hprevious k hk
    · linarith
    · have := mul_le_mul_of_nonneg_right hle (le_of_lt hpow)
      linarith
  case even =>
    rw [hunits]
    rintro (htie | ⟨k, hk, htie⟩)
    · refine heven (h.even (.inl ?_))
      exact mul_right_cancel₀ (ne_of_gt hpow) (by linarith)
    · obtain hgap | ⟨hgap, hle⟩ := hprevious k hk
      · refine heven (h.even (.inr ?_))
        exact mul_right_cancel₀ (ne_of_gt hpow) (by linarith)
      · have := mul_le_mul_of_nonneg_right hle (le_of_lt hpow)
        linarith

end Steps

/-- The binary digits that a quotient has more than a double are what its steps are doubled for. -/
private theorem lt_of_log2 (num : Nat) {den : Nat} (hden : 0 < den) :
    num < 2 ^ 53 * (den * 2 ^ ((num / den).log2 - 52)) ∧
      ((num / den).log2 - 52 = 0 ∨ 2 ^ 52 * (den * 2 ^ ((num / den).log2 - 52)) ≤ num) := by
  have hlt : num / den < 2 ^ (53 + ((num / den).log2 - 52)) :=
    Nat.lt_of_lt_of_le Nat.lt_log2_self (Nat.pow_le_pow_right (by decide) (by omega))
  have hswap : ∀ n k : Nat, n * (den * 2 ^ k) = n * 2 ^ k * den := fun n k => by
    rw [Nat.mul_comm den, Nat.mul_assoc]
  simp only [hswap, ← Nat.pow_add]
  refine ⟨(Nat.div_lt_iff_lt_mul hden).mp hlt, ?_⟩
  by_cases hfew : (num / den).log2 ≤ 52
  · exact .inl (Nat.sub_eq_zero_of_le hfew)
  · right
    have hne : num / den ≠ 0 := by
      intro hzero
      simp [hzero] at hfew
    rw [Nat.add_sub_cancel' (by omega)]
    exact (Nat.le_div_iff_mul_le hden).mp (Nat.log2_self_le hne)

/-- A quotient is rounded to the magnitude it is closest to. -/
theorem roundsTo_of_quotient (num : Nat) {den : Nat} (hden : 0 < den) :
    RoundsTo (num / den) (((num / den).log2 - 52) * binade +
      roundHalfEven num (den <<< ((num / den).log2 - 52))) := by
  obtain ⟨hlt, hcase⟩ := lt_of_log2 num hden
  generalize (num / den).log2 - 52 = doublings at *
  have hstep : 0 < den * 2 ^ doublings := Nat.mul_pos hden (Nat.two_pow_pos _)
  have hstep' : (0 : ℚ) < (den * 2 ^ doublings : ℕ) := Nat.cast_pos.mpr hstep
  have hvalue : (num : ℚ) / den = num / (den * 2 ^ doublings : ℕ) * 2 ^ doublings := by
    push_cast
    field_simp
  rw [Nat.shiftLeft_eq, hvalue]
  refine roundsTo_of_steps ?_ (hcase.imp_right fun hle => ?_) (roundsToNat_roundHalfEven num hstep)
  · rw [div_lt_iff₀ hstep']
    exact_mod_cast hlt
  · rw [le_div_iff₀ hstep']
    exact_mod_cast hle

/-! ## The order -/

namespace RoundsTo

variable {value value' between : ℚ} {m m' : Nat}

/-- Greater numbers are rounded to greater magnitudes. -/
theorem mono (h : RoundsTo value m) (h' : RoundsTo value' m') (hle : value ≤ value') : m ≤ m' := by
  by_contra hlt
  rw [Nat.not_le] at hlt
  obtain ⟨k, rfl⟩ := Nat.exists_eq_add_of_lt hlt
  have hbelow := h.below (m' + k) rfl
  have habove := h'.above
  have hfirst : (unitsOf m' : ℚ) ≤ unitsOf (m' + k) :=
    cast_unitsOf_mono (Nat.le_add_right _ _)
  have hsecond : (unitsOf (m' + 1) : ℚ) ≤ unitsOf (m' + k + 1) :=
    cast_unitsOf_mono (Nat.succ_le_succ (Nat.le_add_right _ _))
  -- Only the number half way between two neighbours is left, and both of them would be even.
  have hk : unitsOf (m' + k) = unitsOf m' := by
    have : (unitsOf (m' + k) : ℚ) = unitsOf m' := by linarith
    exact_mod_cast this
  obtain rfl : k = 0 := by
    have := unitsOf_strictMono.injective hk
    omega
  have heven := h.even (.inr ⟨m', rfl, by linarith⟩)
  have heven' := h'.even (.inl (by linarith))
  omega

theorem unique (h : RoundsTo value m) (h' : RoundsTo value m') : m = m' :=
  Nat.le_antisymm (h.mono h' le_rfl) (h'.mono h le_rfl)

/-- What lies between two numbers that are rounded to one magnitude is rounded to it too. -/
theorem of_between (h : RoundsTo value m) (h' : RoundsTo value' m) (hle : value ≤ between)
    (hle' : between ≤ value') : RoundsTo between m where
  above := by linarith [h'.above]
  below k hk := by linarith [h.below k hk]
  even := by
    rintro (htie | ⟨k, hk, htie⟩)
    · exact h'.even (.inl (by linarith [h'.above]))
    · exact h.even (.inr ⟨k, hk, by linarith [h.below k hk]⟩)

end RoundsTo

/-- The numbers themselves are not rounded. -/
theorem roundsTo_unitsOf (m : Nat) : RoundsTo (unitsOf m) m := by
  have hlt : ∀ k, (unitsOf k : ℚ) < unitsOf (k + 1) := fun k =>
    cast_unitsOf_strictMono (Nat.lt_add_one k)
  constructor
  case above => linarith [hlt m]
  case below =>
    rintro k rfl
    linarith [hlt k]
  case even =>
    rintro (htie | ⟨k, rfl, htie⟩)
    · linarith [hlt m]
    · linarith [hlt k]

/-- What differs by less than half of the seventeenth digit is rounded to the number. -/
theorem roundsTo_of_close {value : ℚ} {m : Nat}
    (h : 2 * 10 ^ 16 * |value - unitsOf m| ≤ unitsOf m) : RoundsTo value m := by
  -- There is nothing close to zero, and elsewhere half a step is farther away.
  cases m with
  | zero =>
    have hzero : (unitsOf 0 : ℚ) = 0 := by exact_mod_cast (show unitsOf 0 = 0 by decide)
    rw [hzero, sub_zero] at h
    have habs := abs_nonneg value
    have hvalue : value = unitsOf 0 := by
      rw [hzero, ← abs_eq_zero]
      linarith
    rw [hvalue]
    exact roundsTo_unitsOf 0
  | succ k =>
    have hgap : (0 : ℚ) < 2 ^ (k / binade - 1) := pow_pos rfl _
    have hbelow : (unitsOf (k + 1) : ℚ) = unitsOf k + 2 ^ (k / binade - 1) := by
      exact_mod_cast unitsOf_succ k
    have habove : (unitsOf (k + 1) : ℚ) + 2 ^ (k / binade - 1) ≤ unitsOf (k + 1 + 1) := by
      rw [unitsOf_succ (k + 1)]
      push_cast
      gcongr
      · norm_num
      · omega
    have hle : (unitsOf (k + 1) : ℚ) ≤ 2 ^ 53 * 2 ^ (k / binade - 1) := by
      exact_mod_cast unitsOf_succ_le k
    have hclose : 2 * |value - unitsOf (k + 1)| < 2 ^ (k / binade - 1) := by linarith
    obtain ⟨hlow, hhigh⟩ := abs_lt.mp (show |value - unitsOf (k + 1)| <
      2 ^ (k / binade - 1) / 2 by linarith)
    constructor
    case above => linarith
    case below =>
      rintro j hj
      obtain rfl := Nat.succ.inj hj
      linarith
    case even =>
      rintro (htie | ⟨j, hj, htie⟩)
      · linarith
      · obtain rfl := Nat.succ.inj hj
        linarith

/-- **A rounded number is the nearest**, and of two that are equally near the even one. -/
theorem RoundsTo.nearest {value : ℚ} {m : Nat} (h : RoundsTo value m) (k : Nat) :
    |value - unitsOf m| ≤ |value - unitsOf k| ∧
      (|value - unitsOf m| = |value - unitsOf k| → k ≠ m → m % 2 = 0) := by
  obtain hlt | rfl | hlt := Nat.lt_trichotomy k m
  case inr.inl => exact ⟨le_rfl, fun _ hne => absurd rfl hne⟩
  case inl =>
    obtain ⟨j, rfl⟩ := Nat.exists_eq_add_of_lt hlt
    have hbelow := h.below (k + j) rfl
    have hle : (unitsOf k : ℚ) ≤ unitsOf (k + j) := cast_unitsOf_mono (Nat.le_add_right _ _)
    have hlt : (unitsOf (k + j) : ℚ) < unitsOf (k + j + 1) :=
      cast_unitsOf_strictMono (Nat.lt_add_one _)
    rw [abs_of_nonneg (show 0 ≤ value - unitsOf k by linarith)]
    refine ⟨abs_le.mpr ⟨by linarith, by linarith⟩, fun htie _ => ?_⟩
    refine h.even (.inr ⟨k + j, rfl, ?_⟩)
    obtain ⟨habs, -⟩ | ⟨habs, -⟩ := abs_cases (value - unitsOf (k + j + 1))
    all_goals linarith
  case inr.inr =>
    have habove := h.above
    have hle : (unitsOf (m + 1) : ℚ) ≤ unitsOf k := cast_unitsOf_mono hlt
    have hlt : (unitsOf m : ℚ) < unitsOf (m + 1) :=
      cast_unitsOf_strictMono (Nat.lt_add_one _)
    rw [abs_of_nonpos (show value - unitsOf k ≤ 0 by linarith)]
    refine ⟨abs_le.mpr ⟨by linarith, by linarith⟩, fun htie _ => ?_⟩
    refine h.even (.inl ?_)
    obtain ⟨habs, -⟩ | ⟨habs, -⟩ := abs_cases (value - unitsOf m)
    all_goals linarith

end Double

/-! ## Decimals -/

namespace Decimal

/-- The number that a decimal stands for. -/
def value (x : Decimal) : ℚ :=
  x.coefficient * 10 ^ x.exponent

theorem value_eq_div (x : Decimal) :
    x.value = (x.coefficient * Nat.pow 10 x.exponent.toNat : ℕ) /
      (Nat.pow 10 (-x.exponent).toNat : ℕ) := by
  show x.value = (x.coefficient * 10 ^ x.exponent.toNat : ℕ) / (10 ^ (-x.exponent).toNat : ℕ)
  push_cast
  rw [value, mul_div_assoc, ← zpow_natCast, ← zpow_natCast, ← zpow_sub₀ (by norm_num)]
  congr 2
  omega

/-- A decimal is below the power of ten of its digits. -/
theorem value_lt (x : Decimal) : x.value < 10 ^ (digitCount x.coefficient + x.exponent) := by
  have hlt : x.coefficient < 10 ^ digitCount x.coefficient :=
    (digitCount_le_iff (digitCount_pos _)).mp (Nat.le_refl _)
  rw [value, zpow_add₀ (by norm_num), zpow_natCast]
  gcongr
  exact_mod_cast hlt

theorem le_of_digitCount {n : Nat} (h : n ≠ 0) : 10 ^ (digitCount n - 1) ≤ n := by
  by_cases hone : digitCount n = 1
  · rw [hone]
    exact Nat.pos_of_ne_zero h
  · have hpos := digitCount_pos n
    have hlt := (digitCount_le_iff (n := n) (k := digitCount n - 1) (by omega)).not.mp (by omega)
    exact Nat.not_lt.mp hlt

/-- It is at least the power of ten of its first digit. -/
theorem le_value {x : Decimal} (h : x.coefficient ≠ 0) :
    10 ^ (digitCount x.coefficient + x.exponent - 1) ≤ x.value := by
  have hle := le_of_digitCount h
  have hpos := digitCount_pos x.coefficient
  have hexponent : (digitCount x.coefficient + x.exponent - 1 : ℤ) =
      (digitCount x.coefficient - 1 : ℕ) + x.exponent := by omega
  rw [value, hexponent, zpow_add₀ (by norm_num), zpow_natCast]
  gcongr
  exact_mod_cast hle

end Decimal

namespace Double

/-- The least positive number. -/
def unit : ℚ :=
  2 ^ (-1074 : ℤ)

theorem unit_pos : 0 < unit :=
  zpow_pos rfl _

theorem roundsTo_magnitudeOfFraction (num : Nat) {den : Nat} (hden : 0 < den) :
    RoundsTo (num / den / unit) (magnitudeOfFraction num den) := by
  have h := roundsTo_of_quotient (num <<< 1074) hden
  have hscaled : ∀ k : ℕ, ((num <<< k : ℕ) : ℚ) / den = num / den / 2 ^ (-k : ℤ) := fun k => by
    rw [Nat.shiftLeft_eq, zpow_neg, zpow_natCast, div_inv_eq_mul, div_mul_eq_mul_div]
    push_cast
    rfl
  rw [hscaled] at h
  exact h

/-- Half of the least positive number is rounded to zero. -/
theorem roundsTo_zero {value : ℚ} (h : 2 * value ≤ 1) : RoundsTo value 0 where
  above := by
    rw [show unitsOf 0 = 0 by decide, show unitsOf (0 + 1) = 1 by decide]
    simpa using h
  below k hk := absurd hk (Nat.succ_ne_zero k)
  even _ := rfl

/-- Infinity counts as `2 ^ 1024`. -/
theorem unitsOf_infiniteMagnitude : (unitsOf infiniteMagnitude : ℚ) = 2 ^ (1024 : ℤ) / unit := by
  have hbinade : infiniteMagnitude = 2046 * binade + binade := by decide
  have hpow : binade = 2 ^ 52 := by decide
  rw [hbinade, unitsOf_add (by decide) (.inr le_rfl), hpow, unit, ← zpow_sub₀ (by norm_num),
    ← pow_add, Nat.cast_pow, ← zpow_natCast]
  rfl

end Double

namespace Decimal

private theorem two_zpow_le {a b : Nat} (h : Nat.pow 2 a ≤ Nat.pow 10 b) :
    (2 : ℚ) ^ (a : ℤ) ≤ 10 ^ (b : ℤ) := by
  rw [zpow_natCast, zpow_natCast]
  exact_mod_cast h

private theorem ten_zpow_neg_le {a b : Nat} (h : Nat.pow 2 a ≤ Nat.pow 10 b) :
    (10 : ℚ) ^ (-b : ℤ) ≤ 2 ^ (-a : ℤ) := by
  rw [zpow_neg, zpow_neg]
  exact inv_anti₀ (zpow_pos rfl _) (two_zpow_le h)

theorem roundsTo_zero_of_leading {x : Decimal}
    (h : x.coefficient = 0 ∨ digitCount x.coefficient + x.exponent < -330) :
    Double.RoundsTo (x.value / Double.unit) 0 := by
  apply Double.roundsTo_zero
  obtain hzero | hleading := h
  · simp [value, hzero]
  · have hhalf : x.value ≤ Double.unit / 2 := calc
      x.value ≤ 10 ^ (digitCount x.coefficient + x.exponent) := le_of_lt x.value_lt
      _ ≤ 10 ^ (-331 : ℤ) := zpow_le_zpow_right₀ (by norm_num) (by omega)
      _ ≤ 2 ^ (-1075 : ℤ) := ten_zpow_neg_le (by decide +kernel)
      _ = Double.unit / 2 := by
        rw [Double.unit, div_eq_mul_inv, ← zpow_sub_one₀ (by norm_num)]
        rfl
    rw [← mul_div_assoc, div_le_one Double.unit_pos]
    linarith

theorem infinite_le_of_leading {x : Decimal} {m : Nat} (h : x.coefficient ≠ 0)
    (hleading : 310 < digitCount x.coefficient + x.exponent)
    (hround : Double.RoundsTo (x.value / Double.unit) m) : Double.infiniteMagnitude ≤ m := by
  refine (Double.roundsTo_unitsOf _).mono hround ?_
  rw [Double.unitsOf_infiniteMagnitude]
  refine div_le_div_of_nonneg_right ?_ (le_of_lt Double.unit_pos)
  calc (2 : ℚ) ^ (1024 : ℤ)
      ≤ 10 ^ (310 : ℤ) := two_zpow_le (by decide +kernel)
    _ ≤ 10 ^ (digitCount x.coefficient + x.exponent - 1) :=
        zpow_le_zpow_right₀ (by norm_num) (by omega)
    _ ≤ x.value := le_value h

/-- The magnitude is what the number is rounded to, but any that is too large may stand for
infinity. -/
theorem exists_roundsTo (x : Decimal) :
    ∃ m, Double.RoundsTo (x.value / Double.unit) m ∧
      (x.magnitude = m ∨
        Double.infiniteMagnitude ≤ m ∧ Double.infiniteMagnitude ≤ x.magnitude) := by
  have hround : Double.RoundsTo (x.value / Double.unit)
      (magnitudeOfFraction (x.coefficient * Nat.pow 10 x.exponent.toNat)
        (Nat.pow 10 (-x.exponent).toNat)) := by
    rw [value_eq_div]
    exact Double.roundsTo_magnitudeOfFraction _ (Nat.pow_pos (by decide))
  refine ⟨_, hround, ?_⟩
  simp only [magnitude]
  split
  case isTrue hsmall => exact .inl ((roundsTo_zero_of_leading hsmall).unique hround)
  case isFalse hnonzero =>
    split
    case isTrue hlarge =>
      exact .inr ⟨infinite_le_of_leading (fun h => hnonzero (.inl h)) hlarge hround, le_rfl⟩
    case isFalse => exact .inl rfl

/-- A decimal is read as a finite double just if it is rounded to it. -/
theorem magnitude_eq_iff {x : Decimal} {m : Nat} (hm : m < Double.infiniteMagnitude) :
    x.magnitude = m ↔ Double.RoundsTo (x.value / Double.unit) m := by
  obtain ⟨n, hround, heq | hinfinite⟩ := x.exists_roundsTo
  · rw [heq]
    exact ⟨fun h => h ▸ hround, fun h => hround.unique h⟩
  · constructor
    · intro h
      omega
    · intro h
      have := hround.unique h
      omega

end Decimal

namespace Double

/-- The absolute value of a finite double. Infinity counts as `2 ^ 1024`, the next power of two. -/
def absValue (x : Double) : ℚ :=
  x.units * unit

theorem absValue_div_unit (x : Double) : x.absValue / unit = unitsOf x.magnitude.toNat :=
  mul_div_cancel_right₀ _ (ne_of_gt unit_pos)

theorem abs_sub_absValue (value : ℚ) (x : Double) :
    |value - x.absValue| = |value / unit - unitsOf x.magnitude.toNat| * unit := by
  rw [← absValue_div_unit, ← sub_div, abs_div, abs_of_pos unit_pos,
    div_mul_cancel₀ _ (ne_of_gt unit_pos)]

/-- A number is nearest to a double if it is to no other double nearer, and if one of another
magnitude is as near, then that of the double is even. -/
structure IsNearest (value : ℚ) (x : Double) : Prop where
  isNumber : x.isNaN = false
  least : ∀ y : Double, y.isNaN = false → |value - x.absValue| ≤ |value - y.absValue|
  even : ∀ y : Double, y.isNaN = false → |value - x.absValue| = |value - y.absValue| →
    y.magnitude ≠ x.magnitude → x.magnitude.toNat % 2 = 0

theorem isNearest_of_units {value : ℚ} {x : Double} (hnumber : x.isNaN = false)
    (h : ∀ k ≤ infiniteMagnitude,
      |value / unit - unitsOf x.magnitude.toNat| ≤ |value / unit - unitsOf k| ∧
        (|value / unit - unitsOf x.magnitude.toNat| = |value / unit - unitsOf k| →
          k ≠ x.magnitude.toNat → x.magnitude.toNat % 2 = 0)) :
    IsNearest value x where
  isNumber := hnumber
  least y hy := by
    rw [abs_sub_absValue, abs_sub_absValue]
    exact mul_le_mul_of_nonneg_right (h _ (Nat.not_lt.mp (of_decide_eq_false hy))).1
      (le_of_lt unit_pos)
  even y hy htie hne := by
    rw [abs_sub_absValue, abs_sub_absValue] at htie
    exact (h _ (Nat.not_lt.mp (of_decide_eq_false hy))).2
      (mul_right_cancel₀ (ne_of_gt unit_pos) htie) (hne ∘ BitVec.eq_of_toNat_eq)

/-- A number beyond infinity is nearest to it. -/
theorem RoundsTo.nearest_infinite {value : ℚ} {m : Nat} (h : RoundsTo value m)
    (hinfinite : infiniteMagnitude ≤ m) {k : Nat} (hk : k ≤ infiniteMagnitude) :
    |value - unitsOf infiniteMagnitude| ≤ |value - unitsOf k| := by
  obtain rfl | hlt := Nat.eq_or_lt_of_le hinfinite
  · exact (h.nearest k).1
  · obtain ⟨j, rfl⟩ : ∃ j, m = j + 1 := ⟨m - 1, by omega⟩
    have hbelow := h.below j rfl
    have hvalue : (unitsOf infiniteMagnitude : ℚ) ≤ value := by
      linarith [cast_unitsOf_mono (Nat.le_of_lt_succ hlt), cast_unitsOf_mono hinfinite]
    rw [abs_of_nonneg (sub_nonneg.mpr hvalue),
      abs_of_nonneg (sub_nonneg.mpr ((cast_unitsOf_mono hk).trans hvalue))]
    linarith [cast_unitsOf_mono hk]

theorem magnitude_toDouble (negative : Bool) (d : Decimal) :
    (d.toDouble negative).magnitude.toNat = min d.magnitude infiniteMagnitude := by
  have hlt : min d.magnitude infiniteMagnitude < 2 ^ 63 :=
    Nat.lt_of_le_of_lt (Nat.min_le_right _ _) (by decide)
  rw [Decimal.toDouble, ofMagnitude, BitVec.toNat_ofNat, Nat.mod_eq_of_lt hlt]

/-- **Decimals are read with correct rounding.** -/
theorem isNearest_toDouble (negative : Bool) (d : Decimal) :
    IsNearest d.value (d.toDouble negative) := by
  have hmagnitude := magnitude_toDouble negative d
  have hnumber : (d.toDouble negative).isNaN = false := decide_eq_false (by omega)
  refine isNearest_of_units hnumber fun k hk => ?_
  obtain ⟨m, hround, hm⟩ := d.exists_roundsTo
  by_cases hfinite : m < infiniteMagnitude
  · have hm : (d.toDouble negative).magnitude.toNat = m := by omega
    rw [hm]
    exact hround.nearest k
  · have hm : (d.toDouble negative).magnitude.toNat = infiniteMagnitude := by omega
    rw [hm]
    exact ⟨hround.nearest_infinite (Nat.not_lt.mp hfinite) hk, fun _ _ => rfl⟩

end Double

end GraphQLSyntax
