import GraphQLSyntax.Token.Lexeme

/-!
# Spellings of numbers

A number literal is spelled by its sign, its digits, its point and its exponent in a row. The letter
of the exponent can be of either case, and its digits can stand behind a plus sign. What is read as
a number is exactly such a spelling in front of a character that cannot belong to a number.

* `NumberLiteral.readWhole_eq_ok_iff`, `NumberLiteral.readFraction_eq_ok_iff` and
  `NumberLiteral.readExponent_eq_ok_iff`: the parts.
* `NumberLiteral.read_eq_ok_iff`: the number.
* `NumberLiteral.eq_of_spelledAs`: a spelling belongs to one literal.
* `NumberLiteral.read_text`: the shortest spelling is read as the literal.
-/

namespace GraphQLSyntax

/-! ## Runs of characters -/

section Runs

variable {α : Type} {p : α → Bool} {xs rest : List α}

theorem takeWhile_append_of_ends (hxs : ∀ x ∈ xs, p x = true)
    (hrest : ∀ x, rest.head? = some x → p x = false) : (xs ++ rest).takeWhile p = xs := by
  rw [List.takeWhile_append_of_pos hxs]
  cases rest with
  | nil => simp
  | cons x rest => simp [hrest x rfl]

theorem dropWhile_append_of_ends (hxs : ∀ x ∈ xs, p x = true)
    (hrest : ∀ x, rest.head? = some x → p x = false) : (xs ++ rest).dropWhile p = rest := by
  rw [List.dropWhile_append_of_pos hxs]
  cases rest with
  | nil => rfl
  | cons x rest => simp [hrest x rfl]

theorem ends_dropWhile (p : α → Bool) (xs : List α) :
    ∀ x, (xs.dropWhile p).head? = some x → p x = false := by
  intro x hx
  have hhead := List.head?_dropWhile_not p xs
  rw [hx] at hhead
  exact hhead

end Runs

/-- One decimal digit or more. -/
def IsDigits (cs : List Char) : Prop :=
  cs ≠ [] ∧ ∀ c ∈ cs, c.isDigit = true

/-- Digits begin with no character that is none. -/
theorem IsDigits.head_ne {digits rest tail : List Char} {c : Char} (h : IsDigits digits)
    (hc : c.isDigit = false) : digits ++ rest ≠ c :: tail := by
  obtain ⟨d, ds, rfl⟩ := List.exists_cons_of_ne_nil h.1
  intro heq
  have hd := h.2 d List.mem_cons_self
  rw [(List.cons.inj heq).1, hc] at hd
  cases hd

namespace NumberLiteral

/-! ## Spellings -/

/-- The point and the digits behind it. -/
def fractionText : Option (List Char) → List Char
  | none => []
  | some digits => '.' :: digits

/-- The letter of an exponent, its sign and its digits. -/
def exponentText : Option (Bool × List Char) → List Char
  | none => []
  | some (negative, digits) => 'e' :: (if negative then '-' :: digits else digits)

/-- The shortest text of a literal. -/
def text (n : NumberLiteral) : List Char :=
  (if n.negative then ['-'] else []) ++ n.whole ++ fractionText n.fraction ++
    exponentText n.exponent

/-- The ways to write the sign of an exponent. -/
def exponentSigns : List (Bool × List Char) :=
  [(false, []), (false, ['+']), (true, ['-'])]

/-- The texts that an exponent can have. -/
inductive ExponentSpelling : Option (Bool × List Char) → List Char → Prop
  | absent : ExponentSpelling none []
  | present {letter : Char} {negative : Bool} {sign digits : List Char}
      (hletter : letter = 'e' ∨ letter = 'E') (hsign : (negative, sign) ∈ exponentSigns) :
      ExponentSpelling (some (negative, digits)) (letter :: (sign ++ digits))

/-- The literal can have this text. -/
def SpelledAs (n : NumberLiteral) (cs : List Char) : Prop :=
  ∃ exponent, ExponentSpelling n.exponent exponent ∧
    cs = (if n.negative then ['-'] else []) ++ n.whole ++ fractionText n.fraction ++ exponent

theorem spelledAs_text (n : NumberLiteral) : n.SpelledAs n.text := by
  refine ⟨exponentText n.exponent, ?_, rfl⟩
  rcases n.exponent with _ | ⟨_ | _, digits⟩
  · exact .absent
  · exact .present (.inl rfl) (show (false, []) ∈ exponentSigns by decide)
  · exact .present (.inl rfl) (show (true, ['-']) ∈ exponentSigns by decide)

/-- All parts have digits, and the whole part has no zero that it does not need. -/
structure WellFormed (n : NumberLiteral) : Prop where
  whole : IsDigits n.whole
  leading : n.whole.head? = some '0' → n.whole = ['0']
  fraction : ∀ digits, n.fraction = some digits → IsDigits digits
  exponent : ∀ negative digits, n.exponent = some (negative, digits) → IsDigits digits

/-- The next character, if any, is no digit. -/
def EndsDigits (rest : List Char) : Prop :=
  ∀ c, rest.head? = some c → c.isDigit = false

/-- The next character, if any, cannot belong to a number. -/
def EndsNumber (rest : List Char) : Prop :=
  ∀ c, rest.head? = some c → c.isDigit = false ∧ joinsNumber c = false

variable {cs rest : List Char}

theorem EndsNumber.endsDigits (h : EndsNumber rest) : EndsDigits rest :=
  fun c hc => (h c hc).1

theorem endsNumber_iff :
    EndsNumber rest ↔ EndsDigits rest ∧ rest.head?.any joinsNumber = false := by
  simp only [EndsNumber, EndsDigits]
  cases rest.head? <;> simp

/-- No letter or point can stand behind a number. -/
theorem EndsNumber.head_ne {c : Char} (h : EndsNumber rest) (hc : joinsNumber c = true) :
    rest.head? ≠ some c := by
  intro hhead
  rw [(h c hhead).2] at hc
  cases hc

/-! ## Parts -/

theorem readDigits_eq_ok_iff {digits : List Char} :
    readDigits cs = .ok (digits, rest) ↔
      IsDigits digits ∧ EndsDigits rest ∧ cs = digits ++ rest := by
  constructor
  · intro h
    unfold readDigits at h
    split at h
    · cases h
    · next hne =>
      cases h
      exact ⟨⟨hne, List.all_eq_true.mp List.all_takeWhile⟩, ends_dropWhile Char.isDigit cs,
        List.takeWhile_append_dropWhile.symm⟩
  · rintro ⟨hdigits, hrest, rfl⟩
    unfold readDigits
    rw [takeWhile_append_of_ends hdigits.2 hrest, dropWhile_append_of_ends hdigits.2 hrest]
    obtain ⟨c, digits, rfl⟩ := List.exists_cons_of_ne_nil hdigits.1
    rfl

theorem readWhole_eq_ok_iff {digits : List Char} :
    readWhole cs = .ok (digits, rest) ↔
      (IsDigits digits ∧ (digits.head? = some '0' → digits = ['0'])) ∧ EndsDigits rest ∧
        cs = digits ++ rest := by
  unfold readWhole
  -- A leading zero is a whole number by itself, and other digits are read to their end.
  split
  · next d tail =>
    constructor
    · intro h
      split at h
      · cases h
      · next hd =>
        cases h
        refine ⟨⟨⟨by simp, by simp⟩, fun _ => rfl⟩, ?_, rfl⟩
        rintro c ⟨⟩
        simpa using hd
    · rintro ⟨⟨hdigits, hleading⟩, hrest, heq⟩
      obtain rfl : digits = ['0'] := by
        apply hleading
        obtain ⟨c, digits, rfl⟩ := List.exists_cons_of_ne_nil hdigits.1
        rw [← (List.cons.inj heq).1]
        rfl
      obtain rfl := (List.cons.inj heq).2
      rw [if_neg (by simp [hrest d rfl])]
  · next hzero =>
    rw [readDigits_eq_ok_iff, and_assoc]
    refine and_congr_right fun hdigits => ⟨fun ⟨hrest, heq⟩ => ⟨fun hhead => ?_, hrest, heq⟩,
      fun ⟨_, hrest, heq⟩ => ⟨hrest, heq⟩⟩
    obtain ⟨tail, rfl⟩ := List.head?_eq_some_iff.mp hhead
    cases tail with
    | nil => rfl
    | cons d tail => exact (hzero d (tail ++ rest) heq).elim

/-- What stands in front is the whole part, so no digit is left. -/
theorem readFraction_eq_ok_iff {fraction : Option (List Char)} (hcs : EndsDigits cs) :
    readFraction cs = .ok (fraction, rest) ↔
      (∀ digits, fraction = some digits → IsDigits digits) ∧ EndsDigits rest ∧
        (fraction = none → rest.head? ≠ some '.') ∧ cs = fractionText fraction ++ rest := by
  unfold readFraction
  split
  · next tail =>
    cases fraction with
    | none =>
      constructor
      · intro h
        obtain ⟨_, _, -, h⟩ := of_map_eq_ok h
        cases h
      · rintro ⟨-, -, hpoint, heq⟩
        obtain rfl : '.' :: tail = rest := heq
        exact absurd rfl (hpoint rfl)
    | some digits =>
      constructor
      · intro h
        obtain ⟨_, _, hread, h⟩ := of_map_eq_ok h
        cases h
        obtain ⟨hdigits, hrest, rfl⟩ := readDigits_eq_ok_iff.mp hread
        refine ⟨?_, hrest, by simp, rfl⟩
        rintro _ ⟨⟩
        exact hdigits
      · rintro ⟨hdigits, hrest, -, heq⟩
        obtain rfl : tail = digits ++ rest := (List.cons.inj heq).2
        rw [readDigits_eq_ok_iff.mpr ⟨hdigits digits rfl, hrest, rfl⟩]
        rfl
  · next hpoint =>
    cases fraction with
    | none =>
      constructor
      · intro h
        cases h
        refine ⟨by simp, hcs, fun _ hhead => ?_, rfl⟩
        obtain ⟨tail, rfl⟩ := List.head?_eq_some_iff.mp hhead
        exact hpoint tail rfl
      · rintro ⟨-, -, -, rfl⟩
        rfl
    | some digits =>
      constructor
      · intro h
        cases h
      · rintro ⟨-, -, -, heq⟩
        exact (hpoint (digits ++ rest) heq).elim

/-- The sign of an exponent is read from one of the ways to write it. -/
theorem of_readExponentSign {negative : Bool} (h : readExponentSign cs = (negative, rest)) :
    ∃ sign, (negative, sign) ∈ exponentSigns ∧ cs = sign ++ rest := by
  unfold readExponentSign at h
  split at h
  · cases h
    exact ⟨['+'], by decide, rfl⟩
  · unfold readSign at h
    split at h
    · cases h
      exact ⟨['-'], by decide, rfl⟩
    · cases h
      exact ⟨[], by decide, rfl⟩

/-- Digits begin with no sign. -/
theorem readSign_digits {digits : List Char} (h : IsDigits digits) (rest : List Char) :
    readSign (digits ++ rest) = (false, digits ++ rest) := by
  unfold readSign
  split
  · next heq => exact absurd heq (h.head_ne (by decide))
  · rfl

theorem readExponentSign_append {negative : Bool} {sign digits : List Char}
    (hsign : (negative, sign) ∈ exponentSigns) (h : IsDigits digits) (rest : List Char) :
    readExponentSign (sign ++ (digits ++ rest)) = (negative, digits ++ rest) := by
  simp only [exponentSigns, List.mem_cons, Prod.mk.injEq, List.not_mem_nil, or_false] at hsign
  rcases hsign with ⟨rfl, rfl⟩ | ⟨rfl, rfl⟩ | ⟨rfl, rfl⟩
  · unfold readExponentSign
    split
    · next heq => exact absurd heq (h.head_ne (by decide))
    · exact readSign_digits h rest
  · rfl
  · rfl

/-- What stands in front is the whole part or the fraction, so no digit is left. -/
theorem readExponent_eq_ok_iff {exponent : Option (Bool × List Char)} (hcs : EndsDigits cs) :
    readExponent cs = .ok (exponent, rest) ↔
      (∀ negative digits, exponent = some (negative, digits) → IsDigits digits) ∧
        EndsDigits rest ∧
        (exponent = none → rest.head? ≠ some 'e' ∧ rest.head? ≠ some 'E') ∧
        ∃ text, ExponentSpelling exponent text ∧ cs = text ++ rest := by
  constructor
  · intro h
    unfold readExponent at h
    split at h
    · next c tail =>
      split at h
      · next hletter =>
        rcases htail : readExponentSign tail with ⟨negative, behindSign⟩
        rw [htail] at h
        obtain ⟨digits, _, hread, h⟩ := of_map_eq_ok h
        cases h
        obtain ⟨sign, hsign, rfl⟩ := of_readExponentSign htail
        obtain ⟨hdigits, hrest, rfl⟩ := readDigits_eq_ok_iff.mp hread
        refine ⟨?_, hrest, by simp, _, .present hletter hsign, ?_⟩
        · rintro _ _ ⟨⟩
          exact hdigits
        · rw [List.cons_append, List.append_assoc]
      · next hletter =>
        cases h
        obtain ⟨hsmall, hcapital⟩ := not_or.mp hletter
        exact ⟨by simp, hcs, by simp [hsmall, hcapital], [], .absent, rfl⟩
    · cases h
      exact ⟨by simp, hcs, by simp, [], .absent, rfl⟩
  · rintro ⟨hdigits, hrest, hnone, text, htext, rfl⟩
    cases htext with
    -- Without an exponent the text behind must not begin with its letter.
    | absent =>
      obtain ⟨hsmall, hcapital⟩ := hnone rfl
      cases rest with
      | nil => rfl
      | cons c tail =>
        have hc : ¬ (c = 'e' ∨ c = 'E') := by simpa using And.intro hsmall hcapital
        rw [List.nil_append, readExponent, if_neg hc]
    | @present letter negative sign digits hletter hsign =>
      have hdigits := hdigits negative digits rfl
      rw [List.cons_append, List.append_assoc, readExponent, if_pos hletter,
        readExponentSign_append hsign hdigits]
      simp only [readDigits_eq_ok_iff.mpr ⟨hdigits, hrest, rfl⟩]
      rfl

/-! ## Numbers -/

/-- A number is its parts in a row. -/
theorem read_eq_ok {n : NumberLiteral} :
    read cs = .ok (n, rest) ↔ ∃ afterSign afterWhole afterFraction,
      readSign cs = (n.negative, afterSign) ∧ readWhole afterSign = .ok (n.whole, afterWhole) ∧
      readFraction afterWhole = .ok (n.fraction, afterFraction) ∧
      readExponent afterFraction = .ok (n.exponent, rest) ∧ rest.head?.any joinsNumber = false := by
  rcases hsign : readSign cs with ⟨negative, afterSign⟩
  simp only [read, hsign, bind, Except.bind, pure, Except.pure]
  constructor
  · intro h
    split at h
    · cases h
    · next hwhole =>
      split at h
      · cases h
      · next hfraction =>
        split at h
        · cases h
        · next hexponent =>
          split at h
          · cases h
          · next hjoins =>
            cases h
            exact ⟨_, _, _, rfl, hwhole, hfraction, hexponent, by simpa using hjoins⟩
  · rintro ⟨_, afterWhole, afterFraction, heq, hwhole, hfraction, hexponent, hjoins⟩
    cases heq
    simp only [hwhole, hfraction, hexponent, hjoins, Bool.false_eq_true, if_false]

private theorem of_readSign {negative : Bool} (h : readSign cs = (negative, rest)) :
    cs = (if negative then ['-'] else []) ++ rest := by
  unfold readSign at h
  split at h <;> cases h <;> rfl

private theorem readSign_append {n : NumberLiteral} (h : n.WellFormed) (rest : List Char) :
    readSign ((if n.negative then ['-'] else []) ++ (n.whole ++ rest)) =
      (n.negative, n.whole ++ rest) := by
  cases n.negative with
  | true => rfl
  | false => exact readSign_digits h.whole rest

/-- What follows the whole part is no digit. -/
theorem endsDigits_fractionText (fraction : Option (List Char)) (h : EndsDigits rest) :
    EndsDigits (fractionText fraction ++ rest) := by
  cases fraction with
  | none => exact h
  | some digits =>
    rintro c ⟨⟩
    rfl

theorem endsNumber_nil : EndsNumber [] := by
  rintro c ⟨⟩

/-- Nor is what follows the fraction, and it is no point either. -/
theorem ExponentSpelling.ends {exponent : Option (Bool × List Char)} {text : List Char}
    (h : ExponentSpelling exponent text) (hrest : EndsNumber rest) :
    EndsDigits (text ++ rest) ∧ (text ++ rest).head? ≠ some '.' := by
  cases h with
  | absent => exact ⟨hrest.endsDigits, hrest.head_ne (by decide)⟩
  | present hletter =>
    rcases hletter with rfl | rfl
    all_goals
      refine ⟨?_, by simp⟩
      rintro c ⟨⟩
      rfl

/-- **What is read as a number is exactly a spelling of the literal** in front of a character that
cannot belong to it. -/
theorem read_eq_ok_iff {n : NumberLiteral} :
    read cs = .ok (n, rest) ↔
      n.WellFormed ∧ EndsNumber rest ∧ ∃ text, n.SpelledAs text ∧ cs = text ++ rest := by
  rw [read_eq_ok]
  constructor
  · rintro ⟨afterSign, afterWhole, afterFraction, hsign, hwhole, hfraction, hexponent, hjoins⟩
    obtain ⟨⟨hdigits, hleading⟩, hendsWhole, rfl⟩ := readWhole_eq_ok_iff.mp hwhole
    obtain ⟨hfractionDigits, hendsFraction, -, rfl⟩ :=
      (readFraction_eq_ok_iff hendsWhole).mp hfraction
    obtain ⟨hexponentDigits, hends, -, exponent, hspelling, rfl⟩ :=
      (readExponent_eq_ok_iff hendsFraction).mp hexponent
    refine ⟨⟨hdigits, hleading, hfractionDigits, hexponentDigits⟩,
      endsNumber_iff.mpr ⟨hends, hjoins⟩, _, ⟨exponent, hspelling, rfl⟩, ?_⟩
    rw [of_readSign hsign]
    simp
  · rintro ⟨hwf, hrest, _, ⟨exponent, hspelling, rfl⟩, rfl⟩
    obtain ⟨hbehind, hpoint⟩ := hspelling.ends hrest
    have hends := endsDigits_fractionText n.fraction hbehind
    simp only [List.append_assoc]
    refine ⟨_, _, _, readSign_append hwf _,
      readWhole_eq_ok_iff.mpr ⟨⟨hwf.whole, hwf.leading⟩, hends, rfl⟩,
      (readFraction_eq_ok_iff hends).mpr ⟨hwf.fraction, hbehind, fun _ => hpoint, rfl⟩,
      (readExponent_eq_ok_iff hbehind).mpr ⟨hwf.exponent, hrest.endsDigits, fun _ => ?_,
        exponent, hspelling, rfl⟩, (endsNumber_iff.mp hrest).2⟩
    exact ⟨hrest.head_ne (by decide), hrest.head_ne (by decide)⟩

/-- No two literals have a spelling in common. -/
theorem eq_of_spelledAs {n m : NumberLiteral} (hn : n.WellFormed) (hm : m.WellFormed)
    (h : n.SpelledAs cs) (h' : m.SpelledAs cs) : n = m := by
  have hread : read (cs ++ []) = .ok (n, []) :=
    read_eq_ok_iff.mpr ⟨hn, endsNumber_nil, cs, h, rfl⟩
  rw [read_eq_ok_iff.mpr ⟨hm, endsNumber_nil, cs, h', rfl⟩] at hread
  exact (Prod.mk.inj (Except.ok.inj hread)).1.symm

/-- The shortest spelling of a literal is read as the literal. -/
theorem read_text {n : NumberLiteral} (h : n.WellFormed) (hrest : EndsNumber rest) :
    read (n.text ++ rest) = .ok (n, rest) :=
  read_eq_ok_iff.mpr ⟨h, hrest, n.text, n.spelledAs_text, rfl⟩

end NumberLiteral

end GraphQLSyntax
