import GraphQLSyntax.Proofs.Double.Exact
import GraphQLSyntax.Proofs.Token.NumberSpelling

/-!
# Numbers as they are written

What a token is written as is the text of a number literal that has the value of the token.

* `exists_integer_literal`: an integer is written as a literal that is the integer.
* `Double.exists_literal`: so is every double that is a number.
-/

namespace GraphQLSyntax

/-! ## Digits -/

theorem isDigits_toDigits (n : Nat) : IsDigits (Nat.toDigits 10 n) :=
  ⟨Nat.toDigits_ne_nil, fun _ => Nat.isDigit_of_mem_toDigits (by decide) (by decide)⟩

/-- Only the digits of zero begin with a zero. -/
theorem head_toDigits {n : Nat} (h : (Nat.toDigits 10 n).head? = some '0') : n = 0 := by
  induction n using Nat.strongRecOn with
  | ind n ih =>
    by_cases hn : n < 10
    · simpa [Nat.toDigits_of_lt_base hn] using h
    · rw [Nat.toDigits_of_base_le (by decide) (by omega)] at h
      obtain ⟨c, cs, hcs⟩ := List.exists_cons_of_ne_nil (Nat.toDigits_ne_nil (n := n / 10) (b := 10))
      have := ih (n / 10) (by omega) (by simpa [hcs] using h)
      omega

/-! ## Integers -/

/-- An integer is written as a literal that is the integer. -/
theorem exists_integer_literal (i : Int64) :
    ∃ n : NumberLiteral, n.WellFormed ∧ n.text = integerText i.toInt ∧ n.kind? = some (.int i) := by
  refine ⟨⟨decide (i.toInt < 0), Nat.toDigits 10 i.toInt.natAbs, none, none⟩,
    ⟨isDigits_toDigits _, fun h => ?_, by simp, by simp⟩, ?_, ?_⟩
  · simp only [head_toDigits h]
    rfl
  · by_cases h : i.toInt < 0 <;> simp [NumberLiteral.text, NumberLiteral.fractionText,
      NumberLiteral.exponentText, integerText, h]
  · have hvalue : (if i.toInt < 0 then -(i.toInt.natAbs : Int) else i.toInt.natAbs) = i.toInt := by
      split <;> omega
    have hrange := And.intro i.minValue_le_toInt i.toInt_le
    simp only [NumberLiteral.kind?, NumberLiteral.integer?, Nat.ofDigitChars_ten_toDigits,
      decide_eq_true_eq, hvalue, if_pos hrange, Int64.ofInt_toInt]
    rfl

/-! ## Decimals -/

namespace Decimal

theorem digitCount_eq_length (n : Nat) : digitCount n = (Nat.toDigits 10 n).length := by
  have h : ∀ k, 0 < k → (digitCount n ≤ k ↔ (Nat.toDigits 10 n).length ≤ k) := fun k hk =>
    (digitCount_le_iff hk).trans (Nat.length_toDigits_le_iff (by decide) hk).symm
  exact Nat.le_antisymm ((h _ Nat.length_toDigits_pos).mpr (Nat.le_refl _))
    ((h _ (digitCount_pos n)).mp (Nat.le_refl _))

/-- The digits of a number are its significant ones and zeros. -/
theorem exists_toDigits_eq (n : Nat) :
    ∃ zeros, Nat.toDigits 10 n = significantDigits n ++ List.replicate zeros '0' := by
  have hsplit := List.takeWhile_append_dropWhile (p := (· == '0')) (l := (Nat.toDigits 10 n).reverse)
  refine ⟨((Nat.toDigits 10 n).reverse.takeWhile (· == '0')).length, ?_⟩
  have hzeros : (Nat.toDigits 10 n).reverse.takeWhile (· == '0') =
      List.replicate ((Nat.toDigits 10 n).reverse.takeWhile (· == '0')).length '0' := by
    apply List.eq_replicate_of_mem
    intro c hc
    simpa using List.all_eq_true.mp List.all_takeWhile c hc
  rw [hzeros] at hsplit
  rw [significantDigits, ← List.reverse_replicate, ← List.reverse_append, hsplit,
    List.reverse_reverse]

/-- The number that its significant digits are, and the zeros that were left out. -/
theorem exists_coefficient_eq {n : Nat} (hn : n ≠ 0) :
    ∃ zeros, n = Nat.ofDigitChars 10 (significantDigits n) 0 * Nat.pow 10 zeros ∧
      digitCount n = (significantDigits n).length + zeros ∧ IsDigits (significantDigits n) ∧
      (significantDigits n).head? ≠ some '0' := by
  obtain ⟨zeros, hdigits⟩ := exists_toDigits_eq n
  have hvalue : n = Nat.ofDigitChars 10 (significantDigits n) 0 * Nat.pow 10 zeros := by
    have h := Nat.ofDigitChars_ten_toDigits (n := n)
    rw [hdigits, Nat.ofDigitChars_append, Nat.ofDigitChars_replicate_zero, Nat.mul_comm] at h
    exact h.symm
  have hne : significantDigits n ≠ [] := by
    intro hnil
    rw [hnil] at hvalue
    exact hn (by simpa using hvalue)
  refine ⟨zeros, hvalue, ?_, ⟨hne, fun c hc => ?_⟩, fun hhead => hn (head_toDigits ?_)⟩
  · rw [digitCount_eq_length, hdigits, List.length_append, List.length_replicate]
  · exact (isDigits_toDigits n).2 c (by rw [hdigits]; exact List.mem_append_left _ hc)
  · rw [hdigits, List.head?_append, hhead]
    rfl

/-- Where the point stands among the digits is made up for by the exponent. -/
theorem magnitude_pointed (digits : List Char) (whole : Nat) (power : Int) :
    (ofDigits (digits.take whole ++ List.replicate (whole - digits.length) '0')
      (if (digits.drop whole).isEmpty then ['0'] else digits.drop whole) power).magnitude =
        (⟨Nat.ofDigitChars 10 digits 0, power + whole - digits.length⟩ : Decimal).magnitude := by
  by_cases hlength : digits.length ≤ whole
  · have hdigits : digits ++ List.replicate (whole - digits.length) '0' ++ ['0'] =
        digits ++ List.replicate (whole - digits.length + 1) '0' := by
      rw [List.append_assoc, ← List.replicate_succ']
    rw [List.drop_eq_nil_of_le hlength, List.take_of_length_le hlength, List.isEmpty_nil,
      if_pos rfl, ofDigits, hdigits, Nat.ofDigitChars_append, Nat.ofDigitChars_replicate_zero,
      Nat.mul_comm]
    refine (magnitude_mul_pow _ _ _).trans ?_
    congr 2
    simp only [List.length_singleton]
    omega
  · have hdrop : digits.drop whole ≠ [] := by simpa using hlength
    have hzeros : whole - digits.length = 0 := by omega
    rw [if_neg (by simpa using hlength), hzeros, List.replicate_zero, List.append_nil, ofDigits,
      List.take_append_drop]
    congr 2
    simp only [List.length_drop]
    omega

/-- A literal that a signed decimal is written as, and that is the nearest double. -/
structure WrittenAs (x : Decimal) (negative : Bool) (text : List Char) (n : NumberLiteral) :
    Prop where
  wellFormed : n.WellFormed
  text : n.text = (if negative then ['-'] else []) ++ text
  kind : n.kind? = some (.float (x.toDouble negative))

theorem WrittenAs.intro {x : Decimal} {n : NumberLiteral} {text : List Char} (h : n.WellFormed)
    (htext : n.text = (if n.negative then ['-'] else []) ++ text)
    (hfloat : n.fraction.isSome ∨ n.exponent.isSome)
    (hvalue : (ofDigits n.whole (n.fraction.getD []) n.power).magnitude = x.magnitude) :
    x.WrittenAs n.negative text n := by
  refine ⟨h, htext, ?_⟩
  have hkind : (n.fraction.isNone && n.exponent.isNone) = false := by
    cases hf : n.fraction <;> cases he : n.exponent <;> simp_all
  simp only [NumberLiteral.kind?, hkind, NumberLiteral.double, toDouble, hvalue]
  rfl

theorem WrittenAs.congr {x y : Decimal} {negative : Bool} {text : List Char} {n : NumberLiteral}
    (h : x.WrittenAs negative text n) (hxy : y.magnitude = x.magnitude) :
    y.WrittenAs negative text n :=
  ⟨h.wellFormed, h.text, by rw [h.kind, toDouble, toDouble, hxy]⟩

variable {digits : List Char}

/-- The whole part of digits that do not begin with a zero. -/
private theorem isDigits_take (h : IsDigits digits) (whole zeros : Nat) :
    IsDigits (digits.take (whole + 1) ++ List.replicate zeros '0') := by
  obtain ⟨c, cs, rfl⟩ := List.exists_cons_of_ne_nil h.1
  refine ⟨by simp, fun d hd => ?_⟩
  rcases List.mem_append.mp hd with hd | hd
  · exact h.2 d (List.mem_of_mem_take hd)
  · rw [(List.mem_replicate.mp hd).2]
    rfl

private theorem isDigits_fraction (h : IsDigits digits) (whole : Nat) :
    IsDigits (if (digits.drop whole).isEmpty then ['0'] else digits.drop whole) := by
  split
  · exact ⟨by simp, by simp⟩
  · next hne => exact ⟨by simpa using hne, fun d hd => h.2 d (List.mem_of_mem_drop hd)⟩

/-- A decimal by its significant digits, the first of which counts `10 ^ leading`. -/
def ofSignificant (digits : List Char) (leading : Int) : Decimal where
  coefficient := Nat.ofDigitChars 10 digits 0
  exponent := leading + 1 - digits.length

/-- The positional form of a number below one. -/
private theorem exists_small (h : IsDigits digits) (zeros : Nat) (negative : Bool) :
    ∃ n, (ofSignificant digits (-zeros - 1)).WrittenAs negative
      (['0', '.'] ++ List.replicate zeros '0' ++ digits) n := by
  have hwf : (⟨negative, ['0'], some (List.replicate zeros '0' ++ digits), none⟩ :
      NumberLiteral).WellFormed := by
    refine ⟨⟨by simp, by simp⟩, fun _ => rfl, fun ds hds => ?_, by simp⟩
    obtain rfl := Option.some.inj hds
    refine ⟨by simp [h.1], fun d hd => ?_⟩
    rcases List.mem_append.mp hd with hd | hd
    · rw [(List.mem_replicate.mp hd).2]
      rfl
    · exact h.2 d hd
  refine ⟨_, .intro hwf ?_ (by simp) ?_⟩
  · simp [NumberLiteral.text, NumberLiteral.fractionText, NumberLiteral.exponentText]
  · have hzero : Nat.ofDigitChars 10 ['0'] 0 = 0 := rfl
    simp only [NumberLiteral.power, Option.getD_some, ofDigits, ofSignificant,
      Nat.ofDigitChars_append, hzero, Nat.ofDigitChars_replicate_zero, Nat.mul_zero,
      List.length_append, List.length_replicate]
    congr 2
    omega

/-- Digits with a point among them, and an optional exponent. -/
private theorem exists_pointed (h : IsDigits digits) (hleading : digits.head? ≠ some '0')
    (whole : Nat) (power : Int) (exponent : Option (Bool × List Char))
    (hexponent : ∀ negative ds, exponent = some (negative, ds) → IsDigits ds)
    (hpower : (⟨false, [], none, exponent⟩ : NumberLiteral).power = power) (negative : Bool) :
    ∃ n, (ofSignificant digits (whole + power)).WrittenAs negative
      (pointed digits (whole + 1) ++ NumberLiteral.exponentText exponent) n := by
  have hwf : (⟨negative,
      digits.take (whole + 1) ++ List.replicate (whole + 1 - digits.length) '0',
      some (if (digits.drop (whole + 1)).isEmpty then ['0'] else digits.drop (whole + 1)),
      exponent⟩ : NumberLiteral).WellFormed := by
    refine ⟨isDigits_take h whole _, fun hhead => ?_, fun ds hds => ?_, hexponent⟩
    · obtain ⟨c, cs, rfl⟩ := List.exists_cons_of_ne_nil h.1
      exact absurd hhead hleading
    · obtain rfl := Option.some.inj hds
      exact isDigits_fraction h _
  refine ⟨_, .intro hwf ?_ (by simp) ?_⟩
  · simp [NumberLiteral.text, NumberLiteral.fractionText, pointed]
  · refine (magnitude_pointed digits (whole + 1) _).trans ?_
    have hp : ∀ sign ws fs, (⟨sign, ws, fs, exponent⟩ : NumberLiteral).power = power :=
      fun _ _ _ => hpower
    simp only [hp, ofSignificant]
    congr 2
    omega

/-- The exponent of a number in scientific form. -/
private theorem exists_exponent (power : Int) :
    ∃ exponent, NumberLiteral.exponentText (some exponent) =
        'e' :: (if power < 0 then ['-'] else []) ++ Nat.toDigits 10 power.natAbs ∧
      IsDigits exponent.2 ∧
      (⟨false, [], none, some exponent⟩ : NumberLiteral).power = power := by
  refine ⟨(decide (power < 0), Nat.toDigits 10 power.natAbs), ?_, isDigits_toDigits _, ?_⟩
  · by_cases h : power < 0 <;> simp [NumberLiteral.exponentText, h]
  · simp only [NumberLiteral.power, Nat.ofDigitChars_ten_toDigits, decide_eq_true_eq]
    split <;> omega

private theorem exists_positional (h : IsDigits digits) (hleading : digits.head? ≠ some '0')
    (leading : Int) (negative : Bool) :
    ∃ n, (ofSignificant digits leading).WrittenAs negative (positional digits leading) n := by
  unfold positional
  split
  · obtain ⟨zeros, rfl⟩ : ∃ zeros : Nat, leading = -zeros - 1 := ⟨(-leading - 1).toNat, by omega⟩
    rw [show (-(-(zeros : Int) - 1) - 1).toNat = zeros by omega]
    exact exists_small h zeros negative
  · obtain ⟨whole, rfl⟩ : ∃ whole : Nat, leading = whole := ⟨leading.toNat, by omega⟩
    have hn := exists_pointed h hleading whole 0 none (by simp) rfl negative
    simpa [NumberLiteral.exponentText] using hn

private theorem exists_scientific (h : IsDigits digits) (hleading : digits.head? ≠ some '0')
    (leading : Int) (negative : Bool) :
    ∃ n, (ofSignificant digits leading).WrittenAs negative (scientific digits leading) n := by
  obtain ⟨exponent, htext, hexponent, hpower⟩ := exists_exponent leading
  have hsome : ∀ negative ds, some exponent = some (negative, ds) → IsDigits ds := by
    rintro negative ds ⟨⟩
    exact hexponent
  have hscientific : scientific digits leading =
      (if digits.length ≤ 1 then digits else pointed digits 1) ++
        NumberLiteral.exponentText (some exponent) := by
    rw [htext]
    simp [scientific]
  rw [hscientific]
  split
  · next hlength =>
    have hwf : (⟨negative, digits, none, some exponent⟩ : NumberLiteral).WellFormed :=
      ⟨h, fun hhead => absurd hhead hleading, by simp, hsome⟩
    refine ⟨_, .intro hwf ?_ (by simp) ?_⟩
    · simp [NumberLiteral.text, NumberLiteral.fractionText]
    · have hp : (⟨negative, digits, none, some exponent⟩ : NumberLiteral).power = leading := hpower
      have hone : digits.length = 1 := by
        have := List.length_pos_iff.mpr h.1
        omega
      simp [hp, ofDigits, ofSignificant, hone]
  · have hn := exists_pointed h hleading 0 leading (some exponent) hsome hpower negative
    simpa using hn

/-- A decimal is written as a literal of the same value. -/
theorem exists_literal (x : Decimal) (negative : Bool) : ∃ n, x.WrittenAs negative x.text n := by
  by_cases hx : x.coefficient = 0
  · have hempty : (significantDigits x.coefficient).isEmpty = true := by
      rw [hx]
      rfl
    have hwf : (⟨negative, ['0'], some ['0'], none⟩ : NumberLiteral).WellFormed :=
      ⟨⟨by simp, by simp⟩, fun _ => rfl, by simp [IsDigits], by simp⟩
    refine ⟨_, .intro hwf ?_ (by simp) ?_⟩
    · simp [text, hempty, NumberLiteral.text, NumberLiteral.fractionText,
        NumberLiteral.exponentText]
    · rw [magnitude, if_pos (.inl rfl), magnitude, if_pos (.inl hx)]
  · obtain ⟨zeros, hvalue, hcount, hdigits, hleading⟩ := exists_coefficient_eq hx
    have hempty : (significantDigits x.coefficient).isEmpty = false := by
      simpa using hdigits.1
    -- The zeros that the digits lack are in the exponent.
    have hmagnitude : x.magnitude =
        (ofSignificant (significantDigits x.coefficient) x.leadingExponent).magnitude := by
      have hexponent : x.leadingExponent + 1 - (significantDigits x.coefficient).length =
          x.exponent + zeros := by
        rw [leadingExponent, hcount]
        omega
      rw [ofSignificant, hexponent, ← magnitude_mul_pow, ← hvalue]
    have hn : ∃ n, (ofSignificant (significantDigits x.coefficient) x.leadingExponent).WrittenAs
        negative x.text n := by
      simp only [text, hempty, Bool.false_eq_true, if_false]
      split
      · exact exists_positional hdigits hleading _ negative
      · exact exists_scientific hdigits hleading _ negative
    obtain ⟨n, hn⟩ := hn
    exact ⟨n, hn.congr hmagnitude⟩

end Decimal

/-! ## Doubles -/

namespace Double

/-- Every double that is a number is written as a literal that is the double. -/
theorem exists_literal {x : Double} (h : x.isNaN = false) :
    ∃ n : NumberLiteral, n.WellFormed ∧ n.text = x.literal ∧ n.kind? = some (.float x) := by
  by_cases hinfinite : x.magnitude.toNat = infiniteMagnitude
  · refine ⟨⟨x.negative, ['1'], none, some (false, ['9', '9', '9'])⟩,
      ⟨⟨by simp, by simp⟩, by simp, by simp, ?_⟩, ?_, ?_⟩
    · rintro negative ds ⟨⟩
      exact ⟨by simp, by simp⟩
    · simp [NumberLiteral.text, NumberLiteral.fractionText, NumberLiteral.exponentText,
        literal_eq h, isInfinite, hinfinite]
    · have hlarge : (Decimal.ofDigits ['1'] [] 999).magnitude = infiniteMagnitude := by
        decide +kernel
      show some (TokenKind.float ((Decimal.ofDigits ['1'] [] 999).toDouble x.negative)) = _
      rw [toDouble_eq h (hlarge.trans hinfinite.symm)]
  · have hfinite : x.magnitude.toNat < infiniteMagnitude := by
      simp only [isNaN, decide_eq_false_iff_not] at h
      omega
    obtain ⟨n, hwf, htext, hkind⟩ := x.shortest.exists_literal x.negative
    refine ⟨n, hwf, ?_, by rw [hkind, toDouble_shortest hfinite]⟩
    rw [htext, literal_eq h]
    simp [isInfinite, hinfinite]

end Double

end GraphQLSyntax
