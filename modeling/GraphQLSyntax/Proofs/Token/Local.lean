import GraphQLSyntax.Proofs.Token.Spelled
import GraphQLSyntax.Proofs.Token.Suffix

/-!
# What a lexeme depends on

A lexeme that is read depends on the characters that it takes and on no more than one behind them.
Another text can stand there instead if it begins with the same character, or with one that ends
the token.

* `NumberLiteral.exists_read_eq`: a number ends where the next character cannot belong to it.
* `readString_local`, `readBlockString_local`: behind a closing quote anything can follow.
* `lexeme_local`: so it is for all lexemes, up to the one character that would go on with it.
-/

namespace GraphQLSyntax

/-! ## Strings -/

/-- Behind the closing quote of a string anything can follow. -/
theorem readString_local {cs rest value : List Char} (h : readString cs = .ok (value, rest)) :
    ∃ c pre, cs = c :: (pre ++ rest) ∧
      ∀ rest', readString (c :: (pre ++ rest')) = .ok (value, rest') := by
  obtain ⟨items, rfl, hvalue⟩ := readString_eq_ok_iff.mp h
  obtain ⟨c, pre, hpre⟩ : ∃ c pre, items.flatMap StringItem.text ++ ['"'] = c :: pre :=
    List.exists_cons_of_ne_nil (by simp)
  have hbehind : ∀ back, c :: (pre ++ back) = items.flatMap StringItem.text ++ '"' :: back := by
    intro back
    rw [← List.cons_append, ← hpre, List.append_assoc, List.singleton_append]
  exact ⟨c, pre, (hbehind rest).symm, fun rest' =>
    readString_eq_ok_iff.mpr ⟨items, hbehind rest', hvalue⟩⟩

/-- So it can behind the closing quotes of a block string. -/
theorem readBlockString_local {cs rest raw : List Char} (h : readBlockString cs = .ok (raw, rest)) :
    ∃ pre, cs = pre ++ rest ∧ ∀ rest', readBlockString (pre ++ rest') = .ok (raw, rest') := by
  obtain ⟨items, hitems, rfl⟩ := readBlockString_eq_ok_iff.mp h
  refine ⟨items.flatMap BlockItem.text ++ tripleQuote, ?_, fun rest' =>
    readBlockString_eq_ok_iff.mpr ⟨items, hitems.behind rest', rfl⟩⟩
  rw [hitems.eq_append, List.append_assoc]

/-! ## Numbers -/

namespace NumberLiteral

variable {cs rest : List Char}

theorem isNumber_of_kind? {n : NumberLiteral} {k : TokenKind} (h : n.kind? = some k) :
    k.isNumber = true := by
  unfold kind? at h
  split at h
  · obtain ⟨value, -, rfl⟩ := Option.map_eq_some_iff.mp h
    rfl
  · cases h
    rfl

/-- A number ends where the next character, if any, cannot belong to it, and nothing more than that
is needed of what stands there. -/
theorem exists_read_eq {n : NumberLiteral} (h : read cs = .ok (n, rest)) :
    EndsNumber rest ∧ ∃ pre, pre ≠ [] ∧ cs = pre ++ rest ∧
      ∀ rest', EndsNumber rest' → read (pre ++ rest') = .ok (n, rest') := by
  obtain ⟨hwf, hends, text, hspelled, rfl⟩ := read_eq_ok_iff.mp h
  refine ⟨hends, text, ?_, rfl, fun rest' hrest' =>
    read_eq_ok_iff.mpr ⟨hwf, hrest', text, hspelled, rfl⟩⟩
  obtain ⟨exponent, -, rfl⟩ := hspelled
  simp [hwf.whole.1]

end NumberLiteral

/-! ## Lexemes -/

namespace Lexeme

variable {cs rest : List Char} {k : TokenKind}

private theorem spread_local (h : spread cs = ⟨.ok k, rest⟩) :
    ∃ pre, cs = pre ++ rest ∧ ∀ rest', spread (pre ++ rest') = ⟨.ok k, rest'⟩ := by
  unfold spread at h
  split at h
  · cases h
    exact ⟨['.', '.'], rfl, fun _ => rfl⟩
  · cases h

private theorem name_local {c : Char} (h : name c cs = ⟨.ok k, rest⟩) :
    ∃ pre, cs = pre ++ rest ∧ ∀ rest', rest'.head? = rest.head? ∨ k.EndsBefore rest' →
      name c (pre ++ rest') = ⟨.ok k, rest'⟩ := by
  cases h
  have hname : ∀ d ∈ cs.takeWhile isNameChar, isNameChar d = true :=
    List.all_eq_true.mp List.all_takeWhile
  refine ⟨cs.takeWhile isNameChar, List.takeWhile_append_dropWhile.symm, fun rest' h => ?_⟩
  have hends : ∀ d, rest'.head? = some d → isNameChar d = false := by
    rcases h with h | h
    · rw [h]
      exact ends_dropWhile isNameChar cs
    · exact fun d hd => by simpa [TokenKind.endsAt] using h d hd
  rw [name, takeWhile_append_of_ends hname hends, dropWhile_append_of_ends hname hends]

private theorem number_local {c : Char} (h : number c cs = ⟨.ok k, rest⟩) :
    ∃ pre, cs = pre ++ rest ∧ ∀ rest', rest'.head? = rest.head? ∨ k.EndsBefore rest' →
      number c (pre ++ rest') = ⟨.ok k, rest'⟩ := by
  unfold number at h
  split at h
  · cases h
  · next literal tail hread =>
    split at h
    · next hkind =>
      cases h
      obtain ⟨hends, pre, hne, hpre, hlocal⟩ := NumberLiteral.exists_read_eq hread
      obtain ⟨d, pre, rfl⟩ := List.exists_cons_of_ne_nil hne
      obtain ⟨rfl, rfl⟩ := List.cons.inj hpre
      refine ⟨pre, rfl, fun rest' h => ?_⟩
      have hends' : NumberLiteral.EndsNumber rest' := by
        rcases h with h | h
        · exact fun d hd => hends d (h ▸ hd)
        · intro d hd
          have hk := NumberLiteral.isNumber_of_kind? hkind
          cases k with
          | int | float => simpa [TokenKind.endsAt] using h d hd
          | punctuator | name | string => cases hk
      have hread' := hlocal rest' hends'
      rw [List.cons_append] at hread'
      simp only [number, hread', hkind]
    · cases h

private theorem string_local (h : string cs = ⟨.ok k, rest⟩) :
    ∃ pre, cs = pre ++ rest ∧ ∀ rest', rest'.head? = rest.head? ∨ k.EndsBefore rest' →
      string (pre ++ rest') = ⟨.ok k, rest'⟩ := by
  unfold string at h
  split at h
  · next body =>
    cases hraw : readBlockString body with
    | error fault => simp [hraw, ofReading, Except.map] at h
    | ok result =>
      obtain ⟨raw, tail⟩ := result
      rw [hraw] at h
      cases h
      obtain ⟨pre, rfl, hlocal⟩ := readBlockString_local hraw
      refine ⟨'"' :: '"' :: pre, rfl, fun rest' _ => ?_⟩
      show ofReading ((readBlockString (pre ++ rest')).map _) _ = _
      rw [hlocal]
      rfl
  · next hblock =>
    cases hvalue : readString cs with
    | error fault => simp [hvalue, ofReading, Except.map] at h
    | ok result =>
      obtain ⟨value, tail⟩ := result
      rw [hvalue] at h
      cases h
      obtain ⟨c, pre, rfl, hlocal⟩ := readString_local hvalue
      refine ⟨c :: pre, rfl, fun rest' hrest' => ?_⟩
      rw [List.cons_append, string, hlocal]
      · rfl
      · -- Two quotes would open a block string. The first one would have closed this string.
        intro body heq
        obtain ⟨rfl, hbehind⟩ := List.cons.inj heq
        rw [readString] at hvalue
        obtain rfl : pre = [] := by simpa using (Prod.mk.inj (Except.ok.inj hvalue)).2
        have hquote : rest'.head? = some '"' := by
          rw [← List.nil_append rest', hbehind]
          rfl
        rcases hrest' with hsame | hends
        · obtain ⟨body', rfl⟩ := List.head?_eq_some_iff.mp (hsame.symm.trans hquote)
          exact hblock body' rfl
        · exact absurd (hends '"' hquote) (by simp [TokenKind.endsAt])

end Lexeme

/-- A lexeme that is read depends on what it takes and on one character behind that, unless the
token ends in front of it. -/
theorem lexeme_local {c : Char} {cs rest : List Char} {k : TokenKind}
    (h : lexeme c cs = ⟨.ok k, rest⟩) :
    ∃ pre, cs = pre ++ rest ∧ ∀ rest', rest'.head? = rest.head? ∨ k.EndsBefore rest' →
      lexeme c (pre ++ rest') = ⟨.ok k, rest'⟩ := by
  unfold lexeme at h ⊢
  split at h
  · cases h
    exact ⟨[], rfl, fun rest' _ => rfl⟩
  · split at h
    · next hc =>
      obtain ⟨pre, hpre, hlocal⟩ := Lexeme.spread_local h
      exact ⟨pre, hpre, fun rest' _ => by rw [if_pos hc, hlocal]⟩
    · next hpoint =>
      simp only [if_neg hpoint]
      split at h
      · next hname =>
        simpa only [if_pos hname] using Lexeme.name_local h
      · next hname =>
        simp only [if_neg hname]
        split at h
        · next hnumber => simpa only [if_pos hnumber] using Lexeme.number_local h
        · next hnumber =>
          simp only [if_neg hnumber]
          split at h
          · next hquote => simpa only [if_pos hquote] using Lexeme.string_local h
          · cases h

end GraphQLSyntax
