import GraphQLSyntax.Proofs.Token.Suffix

/-!
# Where faults are noticed

Wherever a lexeme turns out to be malformed, what is still ahead there is a suffix of its text. So a
lexical fault is noticed between two characters, and not in front of the lexeme.

* `NumberLiteral.read_stuck`, `readString_stuck`: this, for numbers and for strings.
* `lexeme_stuck`: and for all lexemes.
-/

namespace GraphQLSyntax

open List (suffix_refl suffix_cons nil_suffix)

variable {cs : List Char} {stuck : LexFaultAt}

/-- A part that was not read, whatever it would have been made into. -/
private theorem of_map_eq_error {α β : Type} {r : Reading α} {f : α × List Char → β × List Char}
    (h : r.map f = .error stuck) : r = .error stuck := by
  cases r with
  | error fault => exact congrArg Except.error (Except.error.inj h)
  | ok result => cases h

/-! ## Numbers -/

namespace NumberLiteral

theorem ahead_expectedDigitAt (cs : List Char) : (expectedDigitAt cs).ahead = cs := by
  cases cs <;> rfl

theorem readDigits_stuck (h : readDigits cs = .error stuck) : stuck.ahead = cs := by
  unfold readDigits at h
  split at h
  · cases h
    exact ahead_expectedDigitAt cs
  · cases h

theorem readWhole_stuck (h : readWhole cs = .error stuck) : stuck.ahead <:+ cs := by
  unfold readWhole at h
  split at h
  · split at h
    · cases h
      exact suffix_cons _ _
    · cases h
  · rw [readDigits_stuck h]

theorem readFraction_stuck (h : readFraction cs = .error stuck) : stuck.ahead <:+ cs := by
  unfold readFraction at h
  split at h
  · rw [readDigits_stuck (of_map_eq_error h)]
    exact suffix_cons _ _
  · cases h

theorem readExponent_stuck (h : readExponent cs = .error stuck) : stuck.ahead <:+ cs := by
  unfold readExponent at h
  split at h
  · next c tail =>
    split at h
    · rw [readDigits_stuck (of_map_eq_error h)]
      exact (readExponentSign_suffix tail).trans (suffix_cons c tail)
    · cases h
  · cases h

/-- A number is refused at one of its characters, or behind them. -/
theorem read_stuck (h : read cs = .error stuck) : stuck.ahead <:+ cs := by
  have hsign := readSign_suffix cs
  unfold read at h
  simp only [bind, Except.bind, pure, Except.pure] at h
  split at h
  · next hwhole =>
    cases h
    exact (readWhole_stuck hwhole).trans hsign
  · next whole hwhole =>
    have hbehind := (readWhole_suffix hwhole).trans ((List.tail_suffix _).trans hsign)
    split at h
    · next hfraction =>
      cases h
      exact (readFraction_stuck hfraction).trans hbehind
    · next fraction hfraction =>
      have hbehind := (readFraction_suffix hfraction).trans hbehind
      split at h
      · next hexponent =>
        cases h
        exact (readExponent_stuck hexponent).trans hbehind
      · next exponent hexponent =>
        have hbehind := (readExponent_suffix hexponent).trans hbehind
        split at h
        · cases h
          rwa [ahead_expectedDigitAt]
        · cases h

end NumberLiteral

/-! ## Strings -/

/-- A Unicode escape is refused at its backslash, any other only at the end of the source. -/
theorem readEscape_stuck (h : readEscape cs = .error stuck) : stuck.ahead <:+ '\\' :: cs := by
  unfold readEscape at h
  split at h
  · cases h
    exact nil_suffix
  · split at h
    · cases h
    · cases h
      exact suffix_refl _
  · cases h

theorem readString_stuck (h : readString cs = .error stuck) : stuck.ahead <:+ cs := by
  fun_induction readString cs with
  | case1 =>
    cases h
    exact nil_suffix
  | case2 => cases h
  | case3 rest fault hescape =>
    cases h
    exact readEscape_stuck hescape
  | case4 rest c rest' hescape hlt ih =>
    have hrest : rest' <:+ '\\' :: rest := by
      obtain ⟨item, htext, -⟩ := readEscape_eq_ok_iff.mp hescape
      exact ⟨item.text, htext.symm⟩
    exact (ih (of_map_eq_error h)).trans hrest
  | case5 =>
    cases h
    exact suffix_refl _
  | case6 c rest _ _ _ ih => exact (ih (of_map_eq_error h)).trans (suffix_cons c rest)

/-! ## Lexemes -/

namespace Lexeme

private theorem ofReading_stuck {reading : Reading TokenKind} {resume : List Char}
    (h : (ofReading reading resume).outcome = .error stuck) : reading = .error stuck := by
  unfold ofReading at h
  split at h
  · cases h
  · cases h
    rfl

theorem spread_stuck (h : (spread cs).outcome = .error stuck) : stuck.ahead <:+ '.' :: cs := by
  unfold spread at h
  split at h
  · cases h
  · cases h
    exact suffix_refl _

theorem number_stuck {c : Char} (h : (number c cs).outcome = .error stuck) :
    stuck.ahead <:+ c :: cs := by
  unfold number at h
  split at h
  · next hread =>
    cases h
    exact NumberLiteral.read_stuck hread
  · split at h
    · cases h
    · cases h
      exact suffix_refl _

theorem string_stuck (h : (string cs).outcome = .error stuck) : stuck.ahead <:+ cs := by
  unfold string at h
  split at h
  · next body =>
    rw [readBlockString_error (of_map_eq_error (ofReading_stuck h))]
    exact nil_suffix
  · exact readString_stuck (of_map_eq_error (ofReading_stuck h))

end Lexeme

/-- A lexeme is refused at one of its characters, or behind them. -/
theorem lexeme_stuck {c : Char} (h : (lexeme c cs).outcome = .error stuck) :
    stuck.ahead <:+ c :: cs := by
  unfold lexeme at h
  split at h
  · cases h
  · split at h
    · next hspread => exact hspread ▸ Lexeme.spread_stuck h
    · split at h
      · cases h
      · split at h
        · exact Lexeme.number_stuck h
        · split at h
          · exact (Lexeme.string_stuck h).trans (suffix_cons c cs)
          · cases h
            exact suffix_refl _

end GraphQLSyntax
