import GraphQLSyntax.Proofs.Token.NumberSpelling
import Mathlib.Computability.RegularExpressions

/-!
# The pattern of numbers

The texts of numbers as a regular expression, part by part. It matches exactly the spellings of
well-formed literals, and the part for integers those of literals without fraction and exponent.

* `NumberPattern.mem_number`: what numbers can be spelled as.
* `NumberPattern.mem_integer_iff`: which of them are integers.
-/

namespace GraphQLSyntax

open NumberLiteral

namespace NumberPattern

/-! ## Patterns -/

/-- One of the characters, `[...]`. -/
def oneOf (cs : List Char) : RegularExpression Char :=
  (cs.map .char).sum

/-- The pattern or nothing, `p?`. -/
def optional (p : RegularExpression Char) : RegularExpression Char :=
  1 + p

/-- `[0-9]` -/
def digit : RegularExpression Char :=
  oneOf ['0', '1', '2', '3', '4', '5', '6', '7', '8', '9']

/-- `[0-9]+` -/
def digits : RegularExpression Char :=
  digit * digit.star

/-- `0|[1-9][0-9]*` -/
def whole : RegularExpression Char :=
  .char '0' + oneOf ['1', '2', '3', '4', '5', '6', '7', '8', '9'] * digit.star

/-- `-?(0|[1-9][0-9]*)` -/
def integer : RegularExpression Char :=
  optional (.char '-') * whole

/-- `\.[0-9]+` -/
def fraction : RegularExpression Char :=
  .char '.' * digits

/-- `[eE][+-]?[0-9]+` -/
def exponent : RegularExpression Char :=
  oneOf ['e', 'E'] * (optional (oneOf ['+', '-']) * digits)

/-- `-?(0|[1-9][0-9]*)(\.[0-9]+)?([eE][+-]?[0-9]+)?` -/
def number : RegularExpression Char :=
  integer * optional fraction * optional exponent

/-! ## What is matched -/

variable {xs : List Char} {p q : RegularExpression Char}

theorem mem_char {c : Char} : xs ∈ (RegularExpression.char c).matches' ↔ xs = [c] :=
  Iff.rfl

theorem mem_add : xs ∈ (p + q).matches' ↔ xs ∈ p.matches' ∨ xs ∈ q.matches' :=
  Iff.rfl

theorem mem_mul : xs ∈ (p * q).matches' ↔ ∃ ys ∈ p.matches', ∃ zs ∈ q.matches', ys ++ zs = xs :=
  Language.mem_mul

theorem mem_optional : xs ∈ (optional p).matches' ↔ xs = [] ∨ xs ∈ p.matches' :=
  Iff.rfl

theorem mem_oneOf {cs : List Char} : xs ∈ (oneOf cs).matches' ↔ ∃ c ∈ cs, xs = [c] := by
  induction cs with
  | nil => simp [oneOf, Language.notMem_zero]
  | cons c cs ih =>
    have hcons : oneOf (c :: cs) = .char c + oneOf cs := rfl
    rw [hcons, mem_add, ih, mem_char]
    simp

theorem mem_digit : xs ∈ digit.matches' ↔ ∃ c : Char, c.isDigit = true ∧ xs = [c] := by
  have hall : ∀ n < 58, 48 ≤ n →
      Char.ofNat n ∈ ['0', '1', '2', '3', '4', '5', '6', '7', '8', '9'] := by decide
  rw [digit, mem_oneOf]
  constructor
  · rintro ⟨c, hc, rfl⟩
    have hdigits : ['0', '1', '2', '3', '4', '5', '6', '7', '8', '9'].all Char.isDigit = true := rfl
    exact ⟨c, List.all_eq_true.mp hdigits c hc, rfl⟩
  · rintro ⟨c, hc, rfl⟩
    have hrange : 48 ≤ c.toNat ∧ c.toNat < 58 := by
      simp only [Char.isDigit, Bool.and_eq_true, decide_eq_true_eq, ge_iff_le,
        UInt32.le_iff_toNat_le] at hc
      exact ⟨hc.1, Nat.lt_succ_of_le hc.2⟩
    exact ⟨c, by simpa using hall c.toNat hrange.2 hrange.1, rfl⟩

theorem mem_digit_star : xs ∈ digit.star.matches' ↔ ∀ c ∈ xs, c.isDigit = true := by
  rw [RegularExpression.matches'_star, Language.mem_kstar]
  constructor
  · rintro ⟨words, rfl, hwords⟩ c hc
    obtain ⟨word, hword, hc⟩ := List.mem_flatten.mp hc
    obtain ⟨d, hd, rfl⟩ := mem_digit.mp (hwords word hword)
    rwa [List.mem_singleton.mp hc]
  · intro hxs
    refine ⟨xs.map fun c => [c], by simp [← List.flatMap_def], fun word hword => ?_⟩
    obtain ⟨c, hc, rfl⟩ := List.mem_map.mp hword
    exact mem_digit.mpr ⟨c, hxs c hc, rfl⟩

theorem mem_digits : xs ∈ digits.matches' ↔ IsDigits xs := by
  rw [digits, mem_mul]
  constructor
  · rintro ⟨_, hfirst, more, hmore, rfl⟩
    obtain ⟨c, hc, rfl⟩ := mem_digit.mp hfirst
    exact ⟨by simp, List.forall_mem_cons.mpr ⟨hc, mem_digit_star.mp hmore⟩⟩
  · rintro ⟨hne, hxs⟩
    obtain ⟨c, more, rfl⟩ := List.exists_cons_of_ne_nil hne
    obtain ⟨hc, hmore⟩ := List.forall_mem_cons.mp hxs
    exact ⟨[c], mem_digit.mpr ⟨c, hc, rfl⟩, more, mem_digit_star.mpr hmore, rfl⟩

/-- Digits without a zero that they do not need. -/
theorem mem_whole :
    xs ∈ whole.matches' ↔ IsDigits xs ∧ (xs.head? = some '0' → xs = ['0']) := by
  have hnonzero : ∀ c : Char, c ∈ ['1', '2', '3', '4', '5', '6', '7', '8', '9'] ↔
      c.isDigit = true ∧ c ≠ '0' := by
    intro c
    have hdigit : c.isDigit = true ↔
        c ∈ ['0', '1', '2', '3', '4', '5', '6', '7', '8', '9'] := by
      have hc : [c] ∈ digit.matches' ↔ ∃ d : Char, d.isDigit = true ∧ [c] = [d] := mem_digit
      simpa [digit, mem_oneOf] using hc.symm
    rw [hdigit]
    constructor
    · rintro hc
      refine ⟨List.mem_cons_of_mem _ hc, ?_⟩
      rintro rfl
      revert hc
      decide
    · rintro ⟨hc, hne⟩
      exact (List.mem_cons.mp hc).resolve_left hne
  rw [whole, mem_add, mem_char, mem_mul]
  constructor
  · rintro (rfl | ⟨_, hfirst, more, hmore, rfl⟩)
    · exact ⟨⟨by simp, List.all_eq_true.mp rfl⟩, fun _ => rfl⟩
    · obtain ⟨c, hc, rfl⟩ := mem_oneOf.mp hfirst
      obtain ⟨hdigit, hne⟩ := (hnonzero c).mp hc
      refine ⟨⟨by simp, List.forall_mem_cons.mpr ⟨hdigit, mem_digit_star.mp hmore⟩⟩, fun hhead => ?_⟩
      exact absurd (Option.some.inj hhead) hne
  · rintro ⟨⟨hne, hxs⟩, hleading⟩
    obtain ⟨c, more, rfl⟩ := List.exists_cons_of_ne_nil hne
    by_cases hc : c = '0'
    · exact .inl (hleading (by rw [hc]; rfl))
    · obtain ⟨hdigit, hmore⟩ := List.forall_mem_cons.mp hxs
      exact .inr ⟨[c], mem_oneOf.mpr ⟨c, (hnonzero c).mpr ⟨hdigit, hc⟩, rfl⟩, more,
        mem_digit_star.mpr hmore, rfl⟩

/-- An integer is a sign, or none, and digits. -/
theorem mem_integer : xs ∈ integer.matches' ↔ ∃ negative digits,
    (IsDigits digits ∧ (digits.head? = some '0' → digits = ['0'])) ∧
      xs = (if negative = true then ['-'] else []) ++ digits := by
  simp only [integer, mem_mul, mem_optional, mem_char, mem_whole]
  constructor
  · rintro ⟨_, rfl | rfl, ds, hds, rfl⟩
    · exact ⟨false, ds, hds, rfl⟩
    · exact ⟨true, ds, hds, rfl⟩
  · rintro ⟨_ | _, ds, hds, hxs⟩
    · exact ⟨[], .inl rfl, ds, hds, hxs.symm⟩
    · exact ⟨['-'], .inr rfl, ds, hds, hxs.symm⟩

theorem mem_optional_fraction : xs ∈ (optional fraction).matches' ↔
    ∃ part, (∀ digits, part = some digits → IsDigits digits) ∧ xs = fractionText part := by
  simp only [fraction, mem_optional, mem_mul, mem_char, mem_digits]
  constructor
  · rintro (rfl | ⟨_, rfl, ds, hds, rfl⟩)
    · exact ⟨none, by simp, rfl⟩
    · refine ⟨some ds, ?_, rfl⟩
      rintro _ ⟨⟩
      exact hds
  · rintro ⟨_ | ds, hds, rfl⟩
    · exact .inl rfl
    · exact .inr ⟨['.'], rfl, ds, hds ds rfl, rfl⟩

private theorem mem_sign : xs ∈ (optional (oneOf ['+', '-'])).matches' ↔
    ∃ negative, (negative, xs) ∈ exponentSigns := by
  simp only [mem_optional, mem_oneOf, exponentSigns, List.mem_cons, Prod.mk.injEq,
    List.not_mem_nil, or_false]
  constructor
  · rintro (rfl | ⟨_, rfl | rfl, rfl⟩)
    · exact ⟨false, .inl ⟨rfl, rfl⟩⟩
    · exact ⟨false, .inr (.inl ⟨rfl, rfl⟩)⟩
    · exact ⟨true, .inr (.inr ⟨rfl, rfl⟩)⟩
  · rintro ⟨_, ⟨rfl, rfl⟩ | ⟨rfl, rfl⟩ | ⟨rfl, rfl⟩⟩
    · exact .inl rfl
    · exact .inr ⟨'+', .inl rfl, rfl⟩
    · exact .inr ⟨'-', .inr rfl, rfl⟩

theorem mem_optional_exponent : xs ∈ (optional exponent).matches' ↔
    ∃ part, (∀ negative digits, part = some (negative, digits) → IsDigits digits) ∧
      ExponentSpelling part xs := by
  rw [mem_optional]
  simp only [exponent, mem_mul, mem_sign, mem_oneOf, mem_digits]
  constructor
  · rintro (rfl | ⟨_, ⟨letter, hletter, rfl⟩, _, ⟨sign, ⟨negative, hsign⟩, ds, hds, rfl⟩, rfl⟩)
    · exact ⟨none, by simp, .absent⟩
    · refine ⟨some (negative, ds), ?_, .present (by simpa using hletter) hsign⟩
      rintro _ _ ⟨⟩
      exact hds
  · rintro ⟨part, hds, hspelling⟩
    cases hspelling with
    | absent => exact .inl rfl
    | @present letter negative sign ds hletter hsign =>
      exact .inr ⟨[letter], ⟨letter, by simpa using hletter, rfl⟩, sign ++ ds,
        ⟨sign, ⟨negative, hsign⟩, ds, hds negative ds rfl, rfl⟩, rfl⟩

/-- **What numbers can be spelled as.** -/
theorem mem_number : xs ∈ number.matches' ↔
    ∃ n : NumberLiteral, n.WellFormed ∧ n.SpelledAs xs := by
  simp only [number, mem_mul, mem_integer, mem_optional_fraction, mem_optional_exponent]
  constructor
  · rintro ⟨_, ⟨_, ⟨negative, ds, hds, rfl⟩, _, ⟨part, hpart, rfl⟩, rfl⟩, text, ⟨power, hpower,
      hspelling⟩, rfl⟩
    exact ⟨⟨negative, ds, part, power⟩, ⟨hds.1, hds.2, hpart, hpower⟩, text, hspelling, rfl⟩
  · rintro ⟨n, hwf, text, hspelling, rfl⟩
    exact ⟨_, ⟨_, ⟨n.negative, n.whole, ⟨hwf.whole, hwf.leading⟩, rfl⟩, _,
      ⟨n.fraction, hwf.fraction, rfl⟩, rfl⟩, text, ⟨n.exponent, hwf.exponent, hspelling⟩, rfl⟩

/-- A number is spelled as an integer exactly if it has neither a fraction nor an exponent. -/
theorem mem_integer_iff {n : NumberLiteral} (hwf : n.WellFormed) (h : n.SpelledAs xs) :
    xs ∈ integer.matches' ↔ n.fraction = none ∧ n.exponent = none := by
  constructor
  · intro hxs
    obtain ⟨negative, ds, hds, rfl⟩ := mem_integer.mp hxs
    have hinteger : (⟨negative, ds, none, none⟩ : NumberLiteral).WellFormed :=
      ⟨hds.1, hds.2, by simp, by simp⟩
    obtain rfl := eq_of_spelledAs hwf hinteger h ⟨[], .absent, by simp [fractionText]⟩
    exact ⟨rfl, rfl⟩
  · rintro ⟨hfraction, hexponent⟩
    obtain ⟨text, hspelling, rfl⟩ := h
    rw [hexponent] at hspelling
    cases hspelling
    exact mem_integer.mpr ⟨n.negative, n.whole, ⟨hwf.whole, hwf.leading⟩,
      by simp [hfraction, fractionText]⟩

end NumberPattern

end GraphQLSyntax
