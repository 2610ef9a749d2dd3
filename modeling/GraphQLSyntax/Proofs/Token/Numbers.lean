import GraphQLSyntax.Proofs.Token.NumberPattern
import GraphQLSyntax.Proofs.Token.Tiling
import Mathlib.Algebra.Group.Int.Defs

/-!
# Numbers in a source

A scanner that comes to a minus sign or a digit reads a number. It succeeds exactly where a text of
the pattern follows that no name, digit or point goes on with and, if it is an integer, whose value
fits. The token is the number that is written there.

* `Double.ofText?_of_spelledAs`: the texts of numbers can be read as doubles.
* `NumberLiteral.kind?_cases`: what token a number is.
* `Scanner.scans_number`: a number is scanned exactly if it is a literal.
-/

namespace GraphQLSyntax

open NumberLiteral

/-! ## Values -/

/-- The value of an integer as it is written. -/
def integerValue : List Char → Int
  | '-' :: digits => -(Nat.ofDigitChars 10 digits 0 : Int)
  | digits => Nat.ofDigitChars 10 digits 0

/-- The token that the text of a number stands for. -/
inductive NumberKind (text : List Char) : TokenKind → Prop
  | int {value : Int64} (hinteger : text ∈ NumberPattern.integer.matches')
      (hvalue : value.toInt = integerValue text) : NumberKind text (.int value)
  | float {value : Double} (hinteger : text ∉ NumberPattern.integer.matches')
      (hvalue : Double.ofText? text = some value) : NumberKind text (.float value)

/-- The text is that of a number where `rest` follows. -/
structure NumberAt (text rest : List Char) : Prop where
  pattern : text ∈ NumberPattern.number.matches'
  ends : ∀ c, rest.head? = some c →
    ¬ (c.isAlpha = true ∨ c.isDigit = true ∨ c = '_' ∨ c = '.')

/-- A number without fraction and exponent has to fit into 64 bits. -/
def IntegerFits (text : List Char) : Prop :=
  text ∈ NumberPattern.integer.matches' →
    -2 ^ 63 ≤ integerValue text ∧ integerValue text ≤ 2 ^ 63 - 1

variable {n : NumberLiteral} {text rest : List Char}

theorem endsNumber_iff_ends : EndsNumber rest ↔ ∀ c, rest.head? = some c →
    ¬ (c.isAlpha = true ∨ c.isDigit = true ∨ c = '_' ∨ c = '.') := by
  refine forall_congr' fun c => forall_congr' fun _ => ?_
  simp only [joinsNumber, Bool.or_eq_false_iff, beq_eq_false_iff_ne, not_or, Bool.not_eq_true]
  tauto

/-- A text of a number in a row with what follows is what can be read. -/
theorem numberAt_iff : NumberAt text rest ↔
    ∃ n : NumberLiteral, n.WellFormed ∧ n.SpelledAs text ∧ EndsNumber rest := by
  constructor
  · rintro ⟨hpattern, hends⟩
    obtain ⟨n, hwf, hspelled⟩ := NumberPattern.mem_number.mp hpattern
    exact ⟨n, hwf, hspelled, endsNumber_iff_ends.mpr hends⟩
  · rintro ⟨n, hwf, hspelled, hends⟩
    exact ⟨NumberPattern.mem_number.mpr ⟨n, hwf, hspelled⟩, endsNumber_iff_ends.mp hends⟩

/-! ## Doubles -/

namespace Decimal

private theorem naturalOf?_digits {digits : List Char} (h : IsDigits digits) :
    ofText?.naturalOf? digits = some (Nat.ofDigitChars 10 digits 0 : Int) := by
  have hall : digits.all Char.isDigit = true := List.all_eq_true.mpr h.2
  have hne : digits.isEmpty = false := by simpa using h.1
  simp [ofText?.naturalOf?, hall, hne]

/-- The text of a number without its sign can be read as a decimal. -/
theorem ofText?_unsigned (hwf : n.WellFormed) {exponent : List Char}
    (h : ExponentSpelling n.exponent exponent) :
    ofText? (n.whole ++ (fractionText n.fraction ++ exponent)) =
      some (ofDigits n.whole (n.fraction.getD []) n.power) := by
  obtain ⟨negative, whole, fraction, power⟩ := n
  obtain ⟨hwhole, -, hfraction, hpower⟩ := hwf
  have hbehind := (h.ends endsNumber_nil).1
  rw [List.append_nil] at hbehind
  have hends := endsDigits_fractionText fraction hbehind
  have hne : whole.isEmpty = false := by simpa using hwhole.1
  simp only [ofText?, List.span_eq_takeWhile_dropWhile, takeWhile_append_of_ends hwhole.2 hends,
    dropWhile_append_of_ends hwhole.2 hends, hne, Bool.false_and, Bool.not_false, guard_true]
  have hdigits : ∀ ds, fraction = some ds → (ds ++ exponent).takeWhile Char.isDigit = ds ∧
      (ds ++ exponent).dropWhile Char.isDigit = exponent := fun ds hds =>
    ⟨takeWhile_append_of_ends (hfraction ds hds).2 hbehind,
      dropWhile_append_of_ends (hfraction ds hds).2 hbehind⟩
  cases h with
  | absent =>
    cases fraction with
    | none => rfl
    | some digits =>
      simp only [fractionText, List.cons_append, hdigits digits rfl]
      rfl
  | @present letter negative sign ds hletter hsign =>
    have hds : IsDigits ds := hpower negative ds rfl
    simp only [exponentSigns, List.mem_cons, Prod.mk.injEq, List.not_mem_nil, or_false] at hsign
    have hsigned : ∀ c tail, c.isDigit = false → ds ≠ c :: tail := fun c tail hc heq =>
      hds.head_ne hc (by rw [List.append_nil, heq])
    -- The letter, the fraction and the sign are independent, and each text is read by computation.
    rcases hletter with rfl | rfl
    all_goals
      rcases fraction with _ | digits
      all_goals
        simp only [fractionText, List.nil_append, List.cons_append, hdigits, List.cons.injEq,
          Char.reduceEq, false_and, imp_false, not_false_eq_true, implies_true]
        rcases hsign with ⟨rfl, rfl⟩ | ⟨rfl, rfl⟩ | ⟨rfl, rfl⟩
        · rw [List.nil_append]
          split
          · exact absurd rfl (hsigned '-' _ (by decide))
          · exact absurd rfl (hsigned '+' _ (by decide))
          · rw [naturalOf?_digits hds]
            rfl
        · simp only [List.cons_append, List.nil_append, naturalOf?_digits hds]
          rfl
        · simp only [List.cons_append, List.nil_append, naturalOf?_digits hds]
          rfl

end Decimal

/-- The texts of numbers can be read as doubles. -/
theorem Double.ofText?_of_spelledAs (hwf : n.WellFormed) (h : n.SpelledAs text) :
    Double.ofText? text = some n.double := by
  obtain ⟨exponent, hexponent, rfl⟩ := h
  obtain ⟨d, ds, hwhole⟩ := List.exists_cons_of_ne_nil hwf.whole.1
  have hd : d.isDigit = true := hwf.whole.2 d (by simp [hwhole])
  have hne : ∀ c : Char, c.isDigit = false → d ≠ c := by
    rintro c hc rfl
    rw [hd] at hc
    cases hc
  -- The first digit rules out the special values and a further sign.
  have hunsigned : Double.ofText?.unsigned n.negative
      (n.whole ++ (fractionText n.fraction ++ exponent)) = some n.double := by
    have hnan : n.whole ++ (fractionText n.fraction ++ exponent) ≠ "NaN".toList := by
      rw [hwhole]
      exact fun heq => hne 'N' (by decide) (List.cons.inj heq).1
    have hinf : n.whole ++ (fractionText n.fraction ++ exponent) ≠ "inf".toList := by
      rw [hwhole]
      exact fun heq => hne 'i' (by decide) (List.cons.inj heq).1
    rw [Double.ofText?.unsigned, if_neg hnan, if_neg hinf, Decimal.ofText?_unsigned hwf hexponent]
    rfl
  rw [List.append_assoc, List.append_assoc]
  cases hnegative : n.negative with
  | true =>
    rw [hnegative] at hunsigned
    exact hunsigned
  | false =>
    rw [hnegative, hwhole] at hunsigned
    rw [if_neg (by decide), List.nil_append, hwhole, List.cons_append, Double.ofText?]
    · exact hunsigned
    · exact fun _ heq => hne '-' (by decide) (List.cons.inj heq).1
    · exact fun _ heq => hne '+' (by decide) (List.cons.inj heq).1

/-! ## Tokens -/

namespace NumberLiteral

/-- The value of a literal without fraction and exponent. -/
theorem integerValue_of_spelledAs (hwf : n.WellFormed) (h : n.SpelledAs text)
    (hfraction : n.fraction = none) (hexponent : n.exponent = none) :
    integerValue text = if n.negative = true then -(Nat.ofDigitChars 10 n.whole 0 : Int)
      else Nat.ofDigitChars 10 n.whole 0 := by
  obtain ⟨exponent, hspelling, rfl⟩ := h
  rw [hexponent] at hspelling
  cases hspelling
  rw [hfraction, fractionText, List.append_nil, List.append_nil]
  cases n.negative with
  | true => rfl
  | false =>
    have hhead : ∀ digits, n.whole ≠ '-' :: digits := fun digits heq =>
      absurd (hwf.whole.2 '-' (by simp [heq])) (by decide)
    rw [if_neg (by decide), List.nil_append, if_neg (by decide), integerValue]
    exact hhead

/-- The integer that a literal without fraction and exponent is, if it fits. -/
theorem integer?_eq (hwf : n.WellFormed) (h : n.SpelledAs text) (hfraction : n.fraction = none)
    (hexponent : n.exponent = none) :
    n.integer? = if -2 ^ 63 ≤ integerValue text ∧ integerValue text ≤ 2 ^ 63 - 1 then
      some (Int64.ofInt (integerValue text)) else none := by
  have hmin : Int64.minValue.toInt = -2 ^ 63 := by decide
  have hmax : Int64.maxValue.toInt = 2 ^ 63 - 1 := by decide
  rw [integerValue_of_spelledAs hwf h hfraction hexponent, ← hmin, ← hmax]
  rfl

/-- What token a number is: it stands for one exactly if it fits. -/
theorem kind?_cases (hwf : n.WellFormed) (h : n.SpelledAs text) :
    (∃ kind, n.kind? = some kind ∧ NumberKind text kind ∧ IntegerFits text) ∨
      (n.kind? = none ∧ ¬ IntegerFits text) := by
  have hinteger := NumberPattern.mem_integer_iff hwf h
  by_cases hparts : n.fraction = none ∧ n.exponent = none
  · have hkind : n.kind? = n.integer?.map .int := by simp [kind?, hparts]
    rw [hkind, integer?_eq hwf h hparts.1 hparts.2]
    by_cases hrange : -2 ^ 63 ≤ integerValue text ∧ integerValue text ≤ 2 ^ 63 - 1
    · have hvalue : (Int64.ofInt (integerValue text)).toInt = integerValue text :=
        Int64.toInt_ofInt_of_le hrange.1 (Int.lt_of_le_sub_one hrange.2)
      rw [if_pos hrange]
      exact .inl ⟨_, rfl, .int (hinteger.mpr hparts) hvalue, fun _ => hrange⟩
    · rw [if_neg hrange]
      exact .inr ⟨rfl, fun hfits => hrange (hfits (hinteger.mpr hparts))⟩
  · have hkind : n.kind? = some (.float n.double) := by
      simp only [kind?, Bool.and_eq_true, Option.isNone_iff_eq_none, if_neg hparts]
    exact .inl ⟨_, hkind, .float (hinteger.not.mpr hparts) (Double.ofText?_of_spelledAs hwf h),
      fun hmem => absurd (hinteger.mp hmem) hparts⟩

end NumberLiteral

/-! ## Scanning -/

/-- Two numbers that a text begins with are the same. -/
theorem NumberAt.unique {text' rest' : List Char} (h : NumberAt text rest)
    (h' : NumberAt text' rest') (heq : text ++ rest = text' ++ rest') : text = text' := by
  obtain ⟨n, hwf, hspelled, hends⟩ := numberAt_iff.mp h
  obtain ⟨n', hwf', hspelled', hends'⟩ := numberAt_iff.mp h'
  have hread := read_eq_ok_iff.mpr ⟨hwf, hends, text, hspelled, rfl⟩
  have hread' := read_eq_ok_iff.mpr ⟨hwf', hends', text', hspelled', rfl⟩
  rw [heq, hread'] at hread
  obtain ⟨-, rfl⟩ := Prod.mk.inj (Except.ok.inj hread)
  exact List.append_cancel_right heq

namespace Scanner

variable {s : Scanner} {front cs : List Char} {c : Char}

/-- What a scanner comes to at the beginning of a number, with `front` in front of it. -/
structure ScansNumber (s : Scanner) (front cs : List Char) : Prop where
  /-- Exactly the text of a number that fits is a token. -/
  token_iff : ∀ text rest, cs = text ++ rest →
    ((∃ kind, s.scan.1 = .ok ⟨some kind, byteLength front, byteLength (front ++ text)⟩) ↔
      NumberAt text rest ∧ IntegerFits text)
  /-- The token is the number that is written there. -/
  value : ∀ text rest kind, cs = text ++ rest →
    s.scan.1 = .ok ⟨some kind, byteLength front, byteLength (front ++ text)⟩ → NumberKind text kind
  /-- All else is a fault. -/
  fails : (¬ ∃ text rest, cs = text ++ rest ∧ NumberAt text rest ∧ IntegerFits text) →
    ∃ e, s.scan.1 = .error e
  /-- An integer that does not fit is a fault where it begins. -/
  outOfRange : ∀ text rest, cs = text ++ rest → NumberAt text rest → ¬ IntegerFits text →
    s.scan.1 = .error ⟨.integerOutOfRange, byteLength front⟩

/-- A number that fits is scanned, one that does not is a fault where it begins, and where none is
written there is a fault too. -/
theorem scan_number_cases (hsource : s.source.toList = front ++ c :: cs)
    (hskip : skipIgnored .blanks s.ahead = c :: cs) (hc : c = '-' ∨ c.isDigit = true) :
    (∃ text rest, c :: cs = text ++ rest ∧ NumberAt text rest ∧
      ((IntegerFits text ∧ ∃ kind, NumberKind text kind ∧
          s.scan.1 = .ok ⟨some kind, byteLength front, byteLength (front ++ text)⟩) ∨
        (¬ IntegerFits text ∧ s.scan.1 = .error ⟨.integerOutOfRange, byteLength front⟩))) ∨
      ((¬ ∃ text rest, c :: cs = text ++ rest ∧ NumberAt text rest) ∧
        ∃ e, s.scan.1 = .error e) := by
  have hstart := offsetOf_eq hsource
  rw [scan, hskip]
  simp only [lexeme_of_isNumberStart hc, Lexeme.number]
  cases hread : NumberLiteral.read (c :: cs) with
  | error stuck =>
    refine .inr ⟨?_, _, rfl⟩
    rintro ⟨text, rest, heq, hnumber⟩
    obtain ⟨n, hwf, hspelled, hends⟩ := numberAt_iff.mp hnumber
    rw [read_eq_ok_iff.mpr ⟨hwf, hends, text, hspelled, heq⟩] at hread
    cases hread
  | ok result =>
    obtain ⟨n, rest⟩ := result
    obtain ⟨hwf, hends, text, hspelled, heq⟩ := read_eq_ok_iff.mp hread
    have hnumber := numberAt_iff.mpr ⟨n, hwf, hspelled, hends⟩
    have hstop : s.offsetOf rest = byteLength (front ++ text) := by
      rw [heq, ← List.append_assoc] at hsource
      exact offsetOf_eq hsource
    refine .inl ⟨text, rest, heq, hnumber, ?_⟩
    rcases kind?_cases hwf hspelled with ⟨kind, hkind, hvalue, hfits⟩ | ⟨hkind, hfits⟩
    · exact .inl ⟨hfits, kind, hvalue, by simp only [hkind, hstart, hstop]⟩
    · exact .inr ⟨hfits, by simp only [hkind, hstart]⟩

/-- Where a number is scanned, its token tells its text. -/
theorem scan_number_eq_ok (hsource : s.source.toList = front ++ c :: cs)
    (hskip : skipIgnored .blanks s.ahead = c :: cs) (hc : c = '-' ∨ c.isDigit = true)
    {kind : TokenKind} (heq : c :: cs = text ++ rest)
    (h : s.scan.1 = .ok ⟨some kind, byteLength front, byteLength (front ++ text)⟩) :
    NumberAt text rest ∧ IntegerFits text ∧ NumberKind text kind := by
  rcases scan_number_cases hsource hskip hc with
    ⟨text', rest', heq', hnumber, ⟨hfits, kind', hvalue, hscan⟩ | ⟨-, hscan⟩⟩ | ⟨-, e, hscan⟩
  · rw [hscan] at h
    obtain ⟨hkind, -, hstop⟩ := Token.mk.inj (Except.ok.inj h)
    rw [byteLength_append, byteLength_append, Nat.add_left_cancel_iff] at hstop
    obtain ⟨rfl, rfl⟩ := eq_of_append_of_byteLength (heq'.symm.trans heq) hstop
    obtain rfl := Option.some.inj hkind
    exact ⟨hnumber, hfits, hvalue⟩
  · rw [hscan] at h
    cases h
  · rw [hscan] at h
    cases h

/-- Where a number is written, it is scanned if it fits. -/
theorem scan_number_of_numberAt (hsource : s.source.toList = front ++ c :: cs)
    (hskip : skipIgnored .blanks s.ahead = c :: cs) (hc : c = '-' ∨ c.isDigit = true)
    (heq : c :: cs = text ++ rest) (hnumber : NumberAt text rest) :
    (IntegerFits text ∧ ∃ kind,
        s.scan.1 = .ok ⟨some kind, byteLength front, byteLength (front ++ text)⟩) ∨
      (¬ IntegerFits text ∧ s.scan.1 = .error ⟨.integerOutOfRange, byteLength front⟩) := by
  rcases scan_number_cases hsource hskip hc with ⟨text', rest', heq', hnumber', hscan⟩ | ⟨hnone, -⟩
  · obtain rfl := hnumber.unique hnumber' (heq.symm.trans heq')
    exact hscan.imp_left fun ⟨hfits, kind, _, hscan⟩ => ⟨hfits, kind, hscan⟩
  · exact absurd ⟨text, rest, heq, hnumber⟩ hnone

/-- **Exactly the numbers are scanned as numbers.** Wherever a lexeme begins with a minus sign or a
digit, the token is the number that is written there, or there is none and scanning fails. -/
theorem scans_number (hsource : s.source.toList = front ++ c :: cs)
    (hskip : skipIgnored .blanks s.ahead = c :: cs) (hc : c = '-' ∨ c.isDigit = true) :
    s.ScansNumber front (c :: cs) := by
  exact {
    token_iff := by
      intro text rest heq
      constructor
      · rintro ⟨kind, h⟩
        obtain ⟨hnumber, hfits, -⟩ := scan_number_eq_ok hsource hskip hc heq h
        exact ⟨hnumber, hfits⟩
      · rintro ⟨hnumber, hfits⟩
        rcases scan_number_of_numberAt hsource hskip hc heq hnumber with ⟨-, h⟩ | ⟨hno, -⟩
        · exact h
        · exact absurd hfits hno
    value := fun _ _ _ heq h => (scan_number_eq_ok hsource hskip hc heq h).2.2
    fails := by
      intro hnone
      rcases scan_number_cases hsource hskip hc with
        ⟨text, rest, heq, hnumber, ⟨hfits, -⟩ | ⟨-, hscan⟩⟩ | ⟨-, hscan⟩
      · exact absurd ⟨text, rest, heq, hnumber, hfits⟩ hnone
      · exact ⟨_, hscan⟩
      · exact hscan
    outOfRange := by
      intro text rest heq hnumber hfits
      rcases scan_number_of_numberAt hsource hskip hc heq hnumber with ⟨h, -⟩ | ⟨-, h⟩
      · exact absurd h hfits
      · exact h }

/-- The least integer, behind a comma, and one more than the greatest. -/
theorem scans_number_at_limits :
    (ofSource ",-9223372036854775808]").scan.1 = .ok ⟨some (.int Int64.minValue), 1, 21⟩ ∧
      (ofSource ",9223372036854775808]").scan.1 = .error ⟨.integerOutOfRange, 1⟩ := by
  have hless : (ofSource ",-9223372036854775808]").ScansNumber [',']
      ('-' :: "9223372036854775808]".toList) := scans_number rfl rfl (by decide)
  have hmore : (ofSource ",9223372036854775808]").ScansNumber [',']
      ('9' :: "223372036854775808]".toList) := scans_number rfl rfl (by decide)
  have hwf : ∀ negative : Bool,
      WellFormed ⟨negative, "9223372036854775808".toList, none, none⟩ :=
    fun _ => ⟨⟨by simp, List.all_eq_true.mp rfl⟩, by simp, by simp, by simp⟩
  have hspelled : ∀ negative : Bool, SpelledAs ⟨negative, "9223372036854775808".toList, none, none⟩
      ((if negative then ['-'] else []) ++ "9223372036854775808".toList) :=
    fun _ => ⟨[], .absent, by simp [fractionText]⟩
  have hinteger : ∀ negative : Bool, (if negative then ['-'] else []) ++ "9223372036854775808".toList ∈
      NumberPattern.integer.matches' := fun negative =>
    (NumberPattern.mem_integer_iff (hwf negative) (hspelled negative)).mpr ⟨rfl, rfl⟩
  have hnumber : ∀ negative : Bool, NumberAt
      ((if negative then ['-'] else []) ++ "9223372036854775808".toList) [']'] := fun negative =>
    numberAt_iff.mpr ⟨_, hwf negative, hspelled negative, by rintro c ⟨⟩; decide⟩
  constructor
  · obtain ⟨kind, hscan⟩ := (hless.token_iff _ _ rfl).mpr ⟨hnumber true, fun _ => by decide⟩
    rw [hscan]
    cases hless.value _ _ kind rfl hscan with
    | int _ hvalue =>
      rw [Int64.toInt_inj.mp (hvalue.trans (show _ = Int64.minValue.toInt by decide))]
      rfl
    | float hnot => exact absurd (hinteger true) hnot
  · refine hmore.outOfRange _ _ rfl (hnumber false) fun hfits => ?_
    exact absurd (hfits (hinteger false)) (by decide)

end Scanner

end GraphQLSyntax
