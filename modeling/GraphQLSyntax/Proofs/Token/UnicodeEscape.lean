import GraphQLSyntax.Proofs.Token.Number

/-!
# Unicode escapes

An escape names a character by hexadecimal numbers: its code point in braces, its only code unit, or
the two code units of a surrogate pair. The digits can be of either case and have zeros in front.
Exactly the texts of escapes are decoded, each to the character that it names.

* `spellsHex_iff`: hexadecimal digits spell the number that they are read as.
* `UnicodeEscape.toNat_char`: every escape names a character.
* `escapeSpelling_iff`: a character has its code point in braces, and its code unit or its surrogate
  pair, and no other spelling.
* `readUnicode_eq_ok_iff`: what is decoded is the text of an escape.
-/

namespace GraphQLSyntax

/-! ## Hexadecimal numbers -/

/-- The digits spell the number: they are its digits in base sixteen, in either case, behind any
zeros. -/
def SpellsHex (digits : List Char) (n : Nat) : Prop :=
  ∃ zeros, digits.map Char.toLower = List.replicate zeros '0' ++ Nat.toDigits 16 n

/-- What holds of the characters with the first code points can be checked one by one. -/
theorem forall_of_toNat_lt {b : Nat} {P : Char → Prop} (h : ∀ n < b, P (Char.ofNat n)) :
    ∀ c : Char, c.toNat < b → P c := by
  intro c hc
  simpa using h c.toNat hc

private theorem hexValue?_digitChar : ∀ n < 16, hexValue? n.digitChar = some n := by
  decide

private theorem toNat_lt_of_hexValue? {c : Char} {v : Nat} (h : hexValue? c = some v) :
    c.toNat < 128 := by
  have hdigit : '9'.toNat < 128 := by decide
  have hlower : 'f'.toNat < 128 := by decide
  have hupper : 'F'.toNat < 128 := by decide
  simp only [hexValue?, Char.le_def, UInt32.le_iff_toNat_le, Char.toNat_val] at h
  split at h
  · omega
  · split at h
    · omega
    · split at h
      · omega
      · cases h

/-- A hexadecimal digit in lower case is the digit of its value. -/
private theorem toLower_of_hexValue? {c : Char} {v : Nat} (h : hexValue? c = some v) :
    v < 16 ∧ c.toLower = v.digitChar := by
  have hall := forall_of_toNat_lt (b := 128)
    (P := fun c => ∀ v ∈ hexValue? c, v < 16 ∧ c.toLower = v.digitChar) (by decide +kernel)
  exact hall c (toNat_lt_of_hexValue? h) v h

private theorem hexValue?_toLower (c : Char) : hexValue? c.toLower = hexValue? c := by
  by_cases hc : c.toNat < 128
  · exact forall_of_toNat_lt (P := fun c => hexValue? c.toLower = hexValue? c) (by decide +kernel)
      c hc
  · have hupper : 'Z'.val.toNat < 128 := by decide
    have hsame : c.toLower = c := by
      refine dif_neg ?_
      simp only [ge_iff_le, UInt32.le_iff_toNat_le, Char.toNat_val] at hupper ⊢
      omega
    rw [hsame]

theorem ofHexDigits_append_singleton (digits : List Char) (d : Char) :
    ofHexDigits (digits ++ [d]) = 16 * ofHexDigits digits + (hexValue? d).getD 0 := by
  rw [ofHexDigits, List.foldl_append]
  rfl

/-- A digit behind a number makes it the last digit of a larger one. -/
theorem SpellsHex.append_singleton {digits : List Char} {n v : Nat} {d : Char}
    (h : SpellsHex digits n) (hd : hexValue? d = some v) :
    SpellsHex (digits ++ [d]) (16 * n + v) := by
  obtain ⟨zeros, hdigits⟩ := h
  obtain ⟨hv, hlower⟩ := toLower_of_hexValue? hd
  rw [SpellsHex, List.map_append, hdigits, List.map_singleton, hlower]
  by_cases hn : n = 0
  · subst hn
    refine ⟨zeros + 1, ?_⟩
    rw [Nat.mul_zero, Nat.zero_add, Nat.toDigits_of_lt_base hv, List.replicate_succ']
    rfl
  · refine ⟨zeros, ?_⟩
    rw [← Nat.toDigits_append_toDigits (by decide) (Nat.pos_of_ne_zero hn) hv,
      Nat.toDigits_of_lt_base hv, List.append_assoc]

private theorem spellsHex_singleton {d : Char} {v : Nat} (h : hexValue? d = some v) :
    SpellsHex [d] v := by
  obtain ⟨hv, hlower⟩ := toLower_of_hexValue? h
  exact ⟨0, by rw [Nat.toDigits_of_lt_base hv, List.map_singleton, hlower]; rfl⟩

/-- Zeros in front of a number mean nothing to the reader. -/
private theorem ofHexDigits_toDigits (zeros n : Nat) :
    (Nat.toDigits 16 n).all isHexDigit = true ∧
      ofHexDigits (List.replicate zeros '0' ++ Nat.toDigits 16 n) = n := by
  have hzeros : ofHexDigits (List.replicate zeros '0') = 0 := by
    induction zeros with
    | zero => rfl
    | succ zeros ih =>
      rw [List.replicate_succ', ofHexDigits_append_singleton, ih]
      rfl
  induction n using Nat.strongRecOn with
  | ind n ih =>
    by_cases hn : n < 16
    · have hvalue := hexValue?_digitChar n hn
      rw [Nat.toDigits_of_lt_base hn, ofHexDigits_append_singleton, hzeros, hvalue]
      simp [isHexDigit, hvalue]
    · obtain ⟨hall, hvalue⟩ := ih (n / 16) (by omega)
      have hlast := hexValue?_digitChar (n % 16) (Nat.mod_lt n (by decide))
      rw [Nat.toDigits_of_base_le (by decide) (by omega), ← List.append_assoc,
        ofHexDigits_append_singleton, hvalue, hlast, List.all_append, hall]
      exact ⟨by simp [isHexDigit, hlast], Nat.div_add_mod n 16⟩

/-- More digits behind a number go on with it. -/
private theorem SpellsHex.append {front digits : List Char} {n : Nat} (h : SpellsHex front n)
    (hdigits : digits.all isHexDigit = true) :
    SpellsHex (front ++ digits) (digits.foldl (fun n c => 16 * n + (hexValue? c).getD 0) n) := by
  induction digits generalizing front n with
  | nil => simpa using h
  | cons d digits ih =>
    rw [List.all_cons, Bool.and_eq_true] at hdigits
    obtain ⟨v, hv⟩ := Option.isSome_iff_exists.mp hdigits.1
    rw [List.foldl_cons, hv, List.append_cons]
    exact ih (h.append_singleton hv) hdigits.2

/-- **Hexadecimal digits spell the number that they are read as**, and nothing but such digits
spells a number. -/
theorem spellsHex_iff {digits : List Char} {n : Nat} :
    SpellsHex digits n ↔ digits ≠ [] ∧ digits.all isHexDigit = true ∧ ofHexDigits digits = n := by
  constructor
  · rintro ⟨zeros, hdigits⟩
    obtain ⟨hall, hvalue⟩ := ofHexDigits_toDigits zeros n
    have hlower : (digits.map Char.toLower).all isHexDigit = true := by
      rw [hdigits, List.all_append, hall, List.all_replicate]
      simp [isHexDigit, hexValue?]
    refine ⟨?_, ?_, ?_⟩
    · rintro rfl
      simp [Nat.toDigits_ne_nil] at hdigits
    · simpa [isHexDigit, hexValue?_toLower] using hlower
    · rw [← hvalue, ← hdigits]
      simp only [ofHexDigits, List.foldl_map, hexValue?_toLower]
  · rintro ⟨hne, hall, rfl⟩
    obtain ⟨d, digits, rfl⟩ := List.exists_cons_of_ne_nil hne
    rw [List.all_cons, Bool.and_eq_true] at hall
    obtain ⟨v, hv⟩ := Option.isSome_iff_exists.mp hall.1
    have h := (spellsHex_singleton hv).append hall.2
    simpa [ofHexDigits, hv] using h

namespace SpellsHex

variable {digits : List Char} {n : Nat}

/-- Four digits spell a code unit. -/
theorem lt_of_length (h : SpellsHex digits n) (hfour : digits.length = 4) : n < 0x10000 := by
  obtain ⟨zeros, hdigits⟩ := h
  have hlength := congrArg List.length hdigits
  rw [List.length_map, List.length_append, List.length_replicate] at hlength
  have hle : (Nat.toDigits 16 n).length ≤ 4 := by omega
  exact (Nat.length_toDigits_le_iff (by decide) (by decide)).mp hle

theorem all_isHexDigit (h : SpellsHex digits n) : ∀ d ∈ digits, isHexDigit d = true :=
  List.all_eq_true.mp (spellsHex_iff.mp h).2.1

end SpellsHex

/-! ## Escapes -/

/-- A Unicode escape as it can stand in a string. -/
inductive UnicodeEscape
  /-- A code point in braces. -/
  | braced (n : Nat) (digits : List Char) (hdigits : SpellsHex digits n)
      (hlength : digits.length ≤ 6) (hscalar : n.isValidChar)
  /-- A code unit that is no surrogate. -/
  | single (n : Nat) (digits : List Char) (hdigits : SpellsHex digits n)
      (hlength : digits.length = 4) (hscalar : n < 0xD800 ∨ 0xDFFF < n)
  /-- A high surrogate and a low one. -/
  | pair (high low : Nat) (front back : List Char) (hfront : SpellsHex front high)
      (hback : SpellsHex back low) (hlengths : front.length = 4 ∧ back.length = 4)
      (hhigh : 0xD800 ≤ high ∧ high ≤ 0xDBFF) (hlow : 0xDC00 ≤ low ∧ low ≤ 0xDFFF)

/-- A surrogate pair is always that of a character. -/
theorem isValidChar_pairedSurrogates {high low : Nat} (hhigh : 0xD800 ≤ high ∧ high ≤ 0xDBFF)
    (hlow : 0xDC00 ≤ low ∧ low ≤ 0xDFFF) : (pairedSurrogates high low).isValidChar := by
  unfold pairedSurrogates Nat.isValidChar
  omega

private theorem toNat_ofNat {n : Nat} (h : n.isValidChar) : (Char.ofNat n).toNat = n := by
  rw [Char.ofNat, dif_pos h]
  rfl

variable {cs rest : List Char} {c : Char}

namespace UnicodeEscape

/-- What stands behind the letter that begins the escape. -/
def body : UnicodeEscape → List Char
  | braced _ digits .. => '\x7b' :: (digits ++ ['\x7d'])
  | single _ digits .. => digits
  | pair _ _ front back .. => front ++ '\\' :: 'u' :: back

def text (e : UnicodeEscape) : List Char :=
  '\\' :: 'u' :: e.body

/-- The number that the escape names. -/
def codePoint : UnicodeEscape → Nat
  | braced n .. => n
  | single n .. => n
  | pair high low .. => pairedSurrogates high low

def char (e : UnicodeEscape) : Char :=
  Char.ofNat e.codePoint

theorem isValidChar_codePoint (e : UnicodeEscape) : e.codePoint.isValidChar := by
  cases e with
  | braced n digits hdigits hlength hscalar => exact hscalar
  | single n digits hdigits hlength hscalar =>
    have hlt := hdigits.lt_of_length hlength
    simp only [codePoint, Nat.isValidChar]
    omega
  | pair high low front back hfront hback hlengths hhigh hlow =>
    exact isValidChar_pairedSurrogates hhigh hlow

/-- Every escape names a character. -/
theorem toNat_char (e : UnicodeEscape) : e.char.toNat = e.codePoint := by
  rw [char, toNat_ofNat e.isValidChar_codePoint]

/-- The characters that an escape is written with. -/
theorem of_mem_text (e : UnicodeEscape) (h : c ∈ e.text) :
    isHexDigit c = true ∨ c ∈ ['\\', 'u', '\x7b', '\x7d'] := by
  cases e with
  | braced n digits hdigits =>
    have hall := hdigits.all_isHexDigit c
    simp only [text, body, List.mem_cons, List.mem_append] at h ⊢
    grind
  | single n digits hdigits =>
    have hall := hdigits.all_isHexDigit c
    simp only [text, body, List.mem_cons] at h ⊢
    grind
  | pair high low front back hfront hback =>
    have hall := hfront.all_isHexDigit c
    have hall' := hback.all_isHexDigit c
    simp only [text, body, List.mem_cons, List.mem_append] at h ⊢
    grind

end UnicodeEscape

/-! ## Spellings -/

/-- The text is an escape for the character. Digits can be of either case, and zeros in front of a
number in braces do not matter. -/
inductive EscapeSpelling (c : Char) : List Char → Prop
  | braced {digits} (hdigits : SpellsHex digits c.toNat) (hlength : digits.length ≤ 6) :
      EscapeSpelling c ('\\' :: 'u' :: '\x7b' :: (digits ++ ['\x7d']))
  | single {digits} (hdigits : SpellsHex digits c.toNat) (hlength : digits.length = 4) :
      EscapeSpelling c ('\\' :: 'u' :: digits)
  /-- Only a character behind the first plane has a surrogate pair, and it has only one. -/
  | pair {front back} (hplane : 0x10000 ≤ c.toNat)
      (hfront : SpellsHex front (0xD800 + (c.toNat - 0x10000) / 0x400))
      (hback : SpellsHex back (0xDC00 + (c.toNat - 0x10000) % 0x400))
      (hlengths : front.length = 4 ∧ back.length = 4) :
      EscapeSpelling c ('\\' :: 'u' :: (front ++ '\\' :: 'u' :: back))

theorem pairedSurrogates_eq_iff {high low n : Nat} (hhigh : 0xD800 ≤ high ∧ high ≤ 0xDBFF)
    (hlow : 0xDC00 ≤ low ∧ low ≤ 0xDFFF) :
    pairedSurrogates high low = n ↔ 0x10000 ≤ n ∧ high = 0xD800 + (n - 0x10000) / 0x400 ∧
      low = 0xDC00 + (n - 0x10000) % 0x400 := by
  unfold pairedSurrogates
  omega

/-- The spellings of a character are the escapes that name it. -/
theorem escapeSpelling_iff {text : List Char} :
    EscapeSpelling c text ↔ ∃ e : UnicodeEscape, e.text = text ∧ e.char = c := by
  constructor
  · have hvalid : c.toNat.isValidChar := c.valid
    intro h
    cases h with
    | @braced digits hdigits hlength =>
      exact ⟨.braced c.toNat digits hdigits hlength hvalid, rfl, Char.ofNat_toNat c⟩
    | @single digits hdigits hlength =>
      have hscalar : c.toNat < 0xD800 ∨ 0xDFFF < c.toNat := by
        simp only [Nat.isValidChar] at hvalid
        omega
      exact ⟨.single c.toNat digits hdigits hlength hscalar, rfl, Char.ofNat_toNat c⟩
    | @pair front back hplane hfront hback hlengths =>
      simp only [Nat.isValidChar] at hvalid
      -- No character lies behind `0x10FFFF`, so the two units are surrogates.
      have hhigh : 0xD800 ≤ 0xD800 + (c.toNat - 0x10000) / 0x400 ∧
          0xD800 + (c.toNat - 0x10000) / 0x400 ≤ 0xDBFF := by omega
      have hlow : 0xDC00 ≤ 0xDC00 + (c.toNat - 0x10000) % 0x400 ∧
          0xDC00 + (c.toNat - 0x10000) % 0x400 ≤ 0xDFFF := by omega
      refine ⟨.pair _ _ front back hfront hback hlengths hhigh hlow, rfl, ?_⟩
      rw [UnicodeEscape.char, UnicodeEscape.codePoint,
        (pairedSurrogates_eq_iff hhigh hlow).mpr ⟨hplane, rfl, rfl⟩, Char.ofNat_toNat]
  · rintro ⟨e, rfl, rfl⟩
    have hchar := e.toNat_char
    cases e with
    | braced n digits hdigits hlength hscalar => exact .braced (hchar ▸ hdigits) hlength
    | single n digits hdigits hlength hscalar => exact .single (hchar ▸ hdigits) hlength
    | pair high low front back hfront hback hlengths hhigh hlow =>
      obtain ⟨hplane, hhigh', hlow'⟩ := (pairedSurrogates_eq_iff hhigh hlow).mp hchar.symm
      exact .pair hplane (hhigh' ▸ hfront) (hlow' ▸ hback) hlengths

/-! ## Decoding -/

theorem scalar?_eq_some_iff {n : Nat} :
    scalar? n = some c ↔ n.isValidChar ∧ Char.ofNat n = c := by
  rw [scalar?]
  split
  · next hvalid => simp [hvalid]
  · next hvalid => simp [hvalid]

/-- A code unit is four digits. -/
theorem codeUnit?_eq_some_iff {unit : Nat} :
    codeUnit? cs = some (unit, rest) ↔
      ∃ digits, cs = digits ++ rest ∧ digits.length = 4 ∧ SpellsHex digits unit := by
  constructor
  · intro h
    unfold codeUnit? at h
    split at h
    · next w x y z tail =>
      split at h
      · next hdigits =>
        cases h
        exact ⟨[w, x, y, z], rfl, rfl, spellsHex_iff.mpr ⟨by simp, hdigits, rfl⟩⟩
      · cases h
    · cases h
  · rintro ⟨digits, rfl, hlength, hspells⟩
    obtain ⟨-, hdigits, rfl⟩ := spellsHex_iff.mp hspells
    match digits, hlength with
    | [w, x, y, z], _ => exact if_pos hdigits

theorem lowSurrogate?_eq_some_iff {low : Nat} :
    lowSurrogate? cs = some (low, rest) ↔ ∃ digits, cs = '\\' :: 'u' :: (digits ++ rest) ∧
      digits.length = 4 ∧ SpellsHex digits low ∧ 0xDC00 ≤ low ∧ low ≤ 0xDFFF := by
  have hlow : isLowSurrogate low = true ↔ 0xDC00 ≤ low ∧ low ≤ 0xDFFF := by
    simp [isLowSurrogate]
    omega
  constructor
  · intro h
    unfold lowSurrogate? at h
    split at h
    · obtain ⟨hunit, hrange⟩ := Option.filter_eq_some_iff.mp h
      obtain ⟨digits, rfl, hlength, hspells⟩ := codeUnit?_eq_some_iff.mp hunit
      exact ⟨digits, rfl, hlength, hspells, hlow.mp hrange⟩
    · cases h
  · rintro ⟨digits, rfl, hlength, hspells, hrange⟩
    exact Option.filter_eq_some_iff.mpr
      ⟨codeUnit?_eq_some_iff.mpr ⟨digits, rfl, hlength, hspells⟩, hlow.mpr hrange⟩

private theorem isHighSurrogate_iff {unit : Nat} :
    isHighSurrogate unit = true ↔ 0xD800 ≤ unit ∧ unit ≤ 0xDBFF := by
  simp [isHighSurrogate]
  omega

theorem readBraced_eq_ok_iff :
    readBraced cs = .ok (c, rest) ↔ ∃ n digits, cs = digits ++ '\x7d' :: rest ∧
      SpellsHex digits n ∧ digits.length ≤ 6 ∧ n.isValidChar ∧ Char.ofNat n = c := by
  constructor
  · intro h
    have hinvalid : ∀ digits d, readBraced.invalid digits d ≠ .ok (c, rest) := by
      intro digits d hd
      cases hd
    unfold readBraced at h
    simp only at h
    split at h
    · cases h
    · next d tail hdrop =>
      split at h
      · next x hscalar =>
        split at h
        · next hclose =>
          cases h
          split at hscalar
          · next hdigits =>
            obtain ⟨hvalid, hx⟩ := scalar?_eq_some_iff.mp hscalar
            refine ⟨_, cs.takeWhile isHexDigit, ?_, ?_, hdigits.2, hvalid, hx⟩
            · rw [← hclose, ← hdrop, List.takeWhile_append_dropWhile]
            · exact spellsHex_iff.mpr ⟨hdigits.1, List.all_takeWhile, rfl⟩
          · cases hscalar
        · exact absurd h (hinvalid _ _)
      · exact absurd h (hinvalid _ _)
  · rintro ⟨n, digits, rfl, hspells, hlength, hvalid, rfl⟩
    have hends : ∀ d, ('\x7d' :: rest).head? = some d → isHexDigit d = false := by
      rintro _ ⟨⟩
      decide
    obtain ⟨hne, -, rfl⟩ := spellsHex_iff.mp hspells
    rw [readBraced, takeWhile_append_of_ends hspells.all_isHexDigit hends,
      dropWhile_append_of_ends hspells.all_isHexDigit hends]
    simp only [hne, hlength, ne_eq, not_false_eq_true, and_self, if_true,
      scalar?_eq_some_iff.mpr ⟨hvalid, rfl⟩]

/-- Without braces, an escape is one code unit or a surrogate pair. -/
theorem codeUnits?_eq_some_iff (hbrace : cs.head? ≠ some '\x7b') :
    codeUnits? cs = some (c, rest) ↔ ∃ e : UnicodeEscape, cs = e.body ++ rest ∧ e.char = c := by
  constructor
  · intro h
    unfold codeUnits? at h
    split at h
    · cases h
    · next unit tail hunit =>
      obtain ⟨digits, rfl, hlength, hspells⟩ := codeUnit?_eq_some_iff.mp hunit
      -- A high surrogate has to be followed by a low one. Any other unit stands for itself.
      split at h
      · next hhigh =>
        split at h
        · cases h
        · next low tail' hlow =>
          obtain ⟨back, rfl, hback, hspells', hrange⟩ := lowSurrogate?_eq_some_iff.mp hlow
          obtain ⟨x, hx, h⟩ := Option.map_eq_some_iff.mp h
          cases h
          refine ⟨.pair unit low digits back hspells hspells' ⟨hlength, hback⟩
            (isHighSurrogate_iff.mp hhigh) hrange, ?_, (scalar?_eq_some_iff.mp hx).2⟩
          simp [UnicodeEscape.body]
      · next hhigh =>
        obtain ⟨x, hx, h⟩ := Option.map_eq_some_iff.mp h
        cases h
        obtain ⟨hvalid, hx⟩ := scalar?_eq_some_iff.mp hx
        rw [isHighSurrogate_iff] at hhigh
        simp only [Nat.isValidChar] at hvalid
        exact ⟨.single unit digits hspells hlength (by omega), rfl, hx⟩
  · rintro ⟨e, rfl, rfl⟩
    have hchar : scalar? e.codePoint = some e.char :=
      scalar?_eq_some_iff.mpr ⟨e.isValidChar_codePoint, rfl⟩
    cases e with
    | braced => exact absurd rfl hbrace
    | single n digits hspells hlength hscalar =>
      have hhigh : ¬ isHighSurrogate n = true := by
        rw [isHighSurrogate_iff]
        omega
      rw [UnicodeEscape.codePoint] at hchar
      rw [UnicodeEscape.body, codeUnits?, codeUnit?_eq_some_iff.mpr ⟨digits, rfl, hlength, hspells⟩]
      simp only [if_neg hhigh, hchar, Option.map_some]
    | pair high low front back hfront hback hlengths hhigh hlow =>
      have hunit : codeUnit? ((front ++ '\\' :: 'u' :: back) ++ rest) =
          some (high, '\\' :: 'u' :: (back ++ rest)) :=
        codeUnit?_eq_some_iff.mpr ⟨front, by simp, hlengths.1, hfront⟩
      rw [UnicodeEscape.codePoint] at hchar
      rw [UnicodeEscape.body, codeUnits?, hunit]
      simp only [if_pos (isHighSurrogate_iff.mpr hhigh),
        lowSurrogate?_eq_some_iff.mpr ⟨back, rfl, hlengths.2, hback, hlow⟩, hchar, Option.map_some]

/-- Four digits take four bytes, so there is room for a code unit wherever one can be read. -/
theorem readFixed_eq_ok_iff : readFixed cs = .ok (c, rest) ↔ codeUnits? cs = some (c, rest) := by
  unfold readFixed
  split
  · next hbytes =>
    refine ⟨by rintro ⟨⟩, fun h => ?_⟩
    unfold codeUnits? at h
    split at h
    · cases h
    · next unit tail hunit =>
      obtain ⟨digits, rfl, hlength, -⟩ := codeUnit?_eq_some_iff.mp hunit
      rw [List.take_left' hlength] at hbytes
      have hroom := length_le_byteLength digits
      omega
  · cases codeUnits? cs with
    | none => simp
    | some result => simp

/-- A number does not begin with a brace. -/
private theorem SpellsHex.append_ne {digits : List Char} {n : Nat} (h : SpellsHex digits n)
    (back tail : List Char) : digits ++ back ≠ '\x7b' :: tail := by
  intro heq
  obtain ⟨d, digits, rfl⟩ := List.exists_cons_of_ne_nil (spellsHex_iff.mp h).1
  obtain rfl := (List.cons.inj heq).1
  exact absurd (h.all_isHexDigit _ List.mem_cons_self) (by decide)

/-- **What is decoded is the text of an escape**, and it is decoded to the character that the escape
names. -/
theorem readUnicode_eq_ok_iff :
    readUnicode cs = .ok (c, rest) ↔ ∃ e : UnicodeEscape, cs = e.body ++ rest ∧ e.char = c := by
  unfold readUnicode
  split
  · next tail =>
    rw [readBraced_eq_ok_iff]
    constructor
    · rintro ⟨n, digits, rfl, hspells, hlength, hvalid, rfl⟩
      exact ⟨.braced n digits hspells hlength hvalid, by simp [UnicodeEscape.body], rfl⟩
    · rintro ⟨e, heq, rfl⟩
      cases e with
      | braced n digits hspells hlength hscalar =>
        refine ⟨n, digits, ?_, hspells, hlength, hscalar, rfl⟩
        simpa [UnicodeEscape.body] using heq
      | single n digits hspells => exact absurd heq.symm (hspells.append_ne _ _)
      | pair high low front back hfront =>
        rw [UnicodeEscape.body, List.append_assoc] at heq
        exact absurd heq.symm (hfront.append_ne _ _)
  · next hbrace =>
    rw [readFixed_eq_ok_iff, codeUnits?_eq_some_iff]
    intro hhead
    obtain ⟨tail, rfl⟩ := List.head?_eq_some_iff.mp hhead
    exact hbrace tail rfl

end GraphQLSyntax
