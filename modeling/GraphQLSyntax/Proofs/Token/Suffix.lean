import GraphQLSyntax.Proofs.Token.BlockItem
import GraphQLSyntax.Proofs.Token.StringItem
import GraphQLSyntax.Token.Lexeme

/-!
# What a lexeme leaves

Whatever is read from the front of a text leaves a suffix of it. A malformed lexeme leaves one too.

* `lexeme_suffix`: a lexeme leaves a suffix of what stands behind its first character.
* `skipIgnored_suffix`: so does what is skipped in front of it.
-/

namespace GraphQLSyntax

open List (suffix_refl suffix_cons)

variable {cs rest : List Char}

/-- What is a suffix of the rest is one of the whole. -/
private theorem suffix_cons_of {c : Char} (h : rest <:+ cs) : rest <:+ c :: cs :=
  h.trans (suffix_cons c cs)

theorem skipIgnored_suffix (skipping : Skipping) (cs : List Char) :
    skipIgnored skipping cs <:+ cs := by
  fun_induction skipIgnored skipping cs with
  | case1 => exact suffix_refl _
  | case2 c cs ih | case3 cs ih | case4 c cs _ _ ih => exact suffix_cons_of ih
  | case5 => exact suffix_refl _

/-! ## Strings -/

theorem readString_suffix {value : List Char} (h : readString cs = .ok (value, rest)) :
    rest <:+ cs := by
  obtain ⟨items, rfl, -⟩ := readString_eq_ok_iff.mp h
  exact ⟨items.flatMap StringItem.text ++ ['"'], by simp⟩

theorem readBlockString_suffix {raw : List Char} (h : readBlockString cs = .ok (raw, rest)) :
    rest <:+ cs := by
  obtain ⟨items, hitems, -⟩ := readBlockString_eq_ok_iff.mp h
  exact ⟨items.flatMap BlockItem.text ++ tripleQuote, by
    rw [hitems.eq_append, List.append_assoc]⟩

/-! ## Numbers -/

namespace NumberLiteral

/-- Digits take a character. -/
theorem readDigits_suffix {digits : List Char} (h : readDigits cs = .ok (digits, rest)) :
    rest <:+ cs.tail := by
  unfold readDigits at h
  split at h
  · cases h
  · next hdigits =>
    cases h
    cases cs with
    | nil => exact suffix_refl _
    | cons c tail =>
      cases hc : c.isDigit with
      | false => simp [hc] at hdigits
      | true =>
        rw [List.dropWhile_cons_of_pos hc]
        exact List.dropWhile_suffix _

theorem readSign_suffix (cs : List Char) : (readSign cs).2 <:+ cs := by
  unfold readSign
  split
  · exact suffix_cons _ _
  · exact suffix_refl _

theorem readWhole_suffix {digits : List Char} (h : readWhole cs = .ok (digits, rest)) :
    rest <:+ cs.tail := by
  unfold readWhole at h
  split at h
  · split at h
    · cases h
    · cases h
      exact suffix_refl _
  · exact readDigits_suffix h

theorem readFraction_suffix {fraction : Option (List Char)}
    (h : readFraction cs = .ok (fraction, rest)) : rest <:+ cs := by
  unfold readFraction at h
  split at h
  · obtain ⟨_, _, hdigits, h⟩ := of_map_eq_ok h
    cases h
    exact suffix_cons_of ((readDigits_suffix hdigits).trans (List.tail_suffix _))
  · cases h
    exact suffix_refl _

theorem readExponentSign_suffix (cs : List Char) : (readExponentSign cs).2 <:+ cs := by
  unfold readExponentSign
  split
  · exact suffix_cons _ _
  · exact readSign_suffix _

theorem readExponent_suffix {exponent : Option (Bool × List Char)}
    (h : readExponent cs = .ok (exponent, rest)) : rest <:+ cs := by
  unfold readExponent at h
  split at h
  · next c tail =>
    split at h
    · obtain ⟨_, _, hdigits, h⟩ := of_map_eq_ok h
      cases h
      exact suffix_cons_of ((readDigits_suffix hdigits).trans
        ((List.tail_suffix _).trans (readExponentSign_suffix tail)))
    · cases h
      exact suffix_refl _
  · cases h
    exact suffix_refl _

theorem read_suffix {n : NumberLiteral} (h : read cs = .ok (n, rest)) : rest <:+ cs.tail := by
  have hsign : (readSign cs).2.tail <:+ cs.tail := by
    unfold readSign
    split
    · exact List.tail_suffix _
    · exact suffix_refl _
  unfold read at h
  simp only [bind, Except.bind, pure, Except.pure] at h
  split at h
  · cases h
  · next whole hwhole =>
    split at h
    · cases h
    · next fraction hfraction =>
      split at h
      · cases h
      · next exponent hexponent =>
        have hleft : exponent.2 <:+ cs.tail :=
          (readExponent_suffix hexponent).trans ((readFraction_suffix hfraction).trans
            ((readWhole_suffix hwhole).trans hsign))
        split at h
        · cases h
        · cases h
          exact hleft

end NumberLiteral

/-! ## Lexemes -/

namespace Lexeme

private theorem ofReading_suffix {reading : Reading TokenKind} {resume : List Char}
    (hresume : resume <:+ cs) (h : ∀ k rest, reading = .ok (k, rest) → rest <:+ cs) :
    (ofReading reading resume).rest <:+ cs := by
  unfold ofReading
  split
  · next k rest => exact h k rest rfl
  · exact hresume

theorem spread_suffix (cs : List Char) : (spread cs).rest <:+ cs := by
  unfold spread
  split
  · exact ⟨['.', '.'], rfl⟩
  · exact suffix_refl _

theorem number_suffix (c : Char) (cs : List Char) : (number c cs).rest <:+ cs := by
  unfold number
  split
  · exact suffix_refl _
  · next literal rest hread => split <;> exact NumberLiteral.read_suffix hread

theorem string_suffix (cs : List Char) : (string cs).rest <:+ cs := by
  unfold string
  split
  · next body =>
    have hbody : body <:+ '"' :: '"' :: body := ⟨['"', '"'], rfl⟩
    apply ofReading_suffix hbody
    intro k rest h
    obtain ⟨_, _, hraw, h⟩ := of_map_eq_ok h
    cases h
    exact (readBlockString_suffix hraw).trans hbody
  · apply ofReading_suffix (suffix_refl _)
    intro k rest h
    obtain ⟨_, _, hvalue, h⟩ := of_map_eq_ok h
    cases h
    exact readString_suffix hvalue

end Lexeme

theorem lexeme_suffix (c : Char) (cs : List Char) : (lexeme c cs).rest <:+ cs := by
  unfold lexeme
  split
  · exact suffix_refl _
  · repeat' split
    · exact Lexeme.spread_suffix cs
    · exact List.dropWhile_suffix _
    · exact Lexeme.number_suffix c cs
    · exact Lexeme.string_suffix cs
    · exact suffix_refl _

end GraphQLSyntax
