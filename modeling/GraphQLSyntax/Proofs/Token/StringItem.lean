import GraphQLSyntax.Proofs.Token.UnicodeEscape
import GraphQLSyntax.Token.StringLiteral

/-!
# What strings are made of

Between its quotes a string is a sequence of items, and each of them stands for one character. A
string is read exactly if it is such a sequence with a closing quote behind it, and its value is
what the items stand for.

* `readEscape_eq_ok_iff`: an escape is an item that begins with a backslash.
* `readString_items`: the items of a string are read one after the other, whatever stands behind
  them.
* `readString_eq_ok_iff`: a string is its items and the closing quote.
-/

namespace GraphQLSyntax

/-- The letters that stand for controls behind a backslash. -/
def controlLetters : List (Char × Char) :=
  [('b', '\x08'), ('f', '\x0c'), ('n', '\n'), ('r', '\r'), ('t', '\t')]

/-- What can stand in a string for a character. -/
inductive StringItem
  /-- The character itself. -/
  | plain (c : Char) (h : c ≠ '"' ∧ c ≠ '\\' ∧ c ≠ '\n' ∧ c ≠ '\r')
  /-- A backslash and the letter of a control. -/
  | control (letter c : Char) (h : (letter, c) ∈ controlLetters)
  /-- A backslash and the character, which can be any that means nothing else there. -/
  | verbatim (c : Char) (h : c ≠ 'u' ∧ ∀ d, (c, d) ∉ controlLetters)
  | unicode (e : UnicodeEscape)

namespace StringItem

def text : StringItem → List Char
  | plain c _ => [c]
  | control letter _ _ => ['\\', letter]
  | verbatim c _ => ['\\', c]
  | unicode e => e.text

/-- The character that the item stands for. -/
def value : StringItem → Char
  | plain c _ => c
  | control _ c _ => c
  | verbatim c _ => c
  | unicode e => e.char

/-- What stands for a character does not begin with a quote. -/
theorem head_text (item : StringItem) : ∃ c cs, item.text = c :: cs ∧ c ≠ '"' := by
  cases item with
  | plain c h => exact ⟨c, [], rfl, h.1⟩
  | control letter _ _ => exact ⟨'\\', [letter], rfl, by decide⟩
  | verbatim c _ => exact ⟨'\\', [c], rfl, by decide⟩
  | unicode e => exact ⟨'\\', 'u' :: e.body, rfl, by decide⟩

/-- Behind the first quote of a string with an item there are not two more. -/
theorem not_isPrefix {items : List StringItem} {rest : List Char}
    (h : items = [] → ¬ ['"', '"'] <+: rest) : ¬ ['"', '"'] <+: items.flatMap text ++ rest := by
  cases items with
  | nil => exact h rfl
  | cons item items =>
    obtain ⟨c, cs, htext, hc⟩ := item.head_text
    rintro ⟨tail, heq⟩
    rw [List.flatMap_cons, htext] at heq
    exact hc (List.cons.inj heq).1.symm

end StringItem

/-- A string with these items, from quote to quote. -/
def stringLiteral (items : List StringItem) : List Char :=
  '"' :: (items.flatMap StringItem.text ++ ['"'])

theorem stringLiteral_append (items : List StringItem) (rest : List Char) :
    stringLiteral items ++ rest = '"' :: (items.flatMap StringItem.text ++ '"' :: rest) := by
  simp [stringLiteral]

variable {cs rest : List Char} {c : Char}

/-! ## One item -/

private theorem unescaped_of_mem {letter : Char} (h : (letter, c) ∈ controlLetters) :
    letter ≠ 'u' ∧ unescaped letter = c := by
  have hall : ∀ p ∈ controlLetters, p.1 ≠ 'u' ∧ unescaped p.1 = p.2 := by decide
  exact hall _ h

private theorem unescaped_of_not_mem (h : ∀ d, (c, d) ∉ controlLetters) : unescaped c = c := by
  have hor : unescaped c = c ∨ (c, unescaped c) ∈ controlLetters := by
    unfold unescaped
    split
    case h_6 => exact .inl rfl
    all_goals exact .inr (by decide)
  exact hor.resolve_right (h _)

private theorem readEscape_of_ne (hc : c ≠ 'u') :
    readEscape (c :: rest) = .ok (unescaped c, rest) :=
  readEscape.eq_3 c rest hc

theorem readEscape_unicode_eq_ok_iff :
    readEscape ('u' :: cs) = .ok (c, rest) ↔
      ∃ e : UnicodeEscape, '\\' :: 'u' :: cs = e.text ++ rest ∧ e.char = c := by
  have hread : readEscape ('u' :: cs) = .ok (c, rest) ↔ readUnicode cs = .ok (c, rest) := by
    rw [readEscape]
    cases readUnicode cs <;> simp
  simp [hread, readUnicode_eq_ok_iff, UnicodeEscape.text]

/-- An escape is an item that begins with a backslash. -/
theorem readEscape_eq_ok_iff :
    readEscape cs = .ok (c, rest) ↔
      ∃ item : StringItem, '\\' :: cs = item.text ++ rest ∧ item.value = c := by
  constructor
  · intro h
    cases cs with
    | nil => cases h
    | cons d tail =>
      by_cases hu : d = 'u'
      · subst hu
        obtain ⟨e, htext, hchar⟩ := readEscape_unicode_eq_ok_iff.mp h
        exact ⟨.unicode e, htext, hchar⟩
      rw [readEscape_of_ne hu] at h
      cases h
      -- A letter of the table stands for a control character, and any other for itself.
      by_cases hd : ∃ control, (d, control) ∈ controlLetters
      · obtain ⟨control, hcontrol⟩ := hd
        exact ⟨.control d control hcontrol, rfl, (unescaped_of_mem hcontrol).2.symm⟩
      · have hnone : ∀ control, (d, control) ∉ controlLetters := fun _ h => hd ⟨_, h⟩
        exact ⟨.verbatim d ⟨hu, hnone⟩, rfl, (unescaped_of_not_mem hnone).symm⟩
  · rintro ⟨item, heq, rfl⟩
    cases item with
    | plain d h => exact absurd (List.cons.inj heq).1.symm h.2.1
    | control letter d h =>
      obtain rfl := (List.cons.inj heq).2
      obtain ⟨hu, hvalue⟩ := unescaped_of_mem h
      exact (readEscape_of_ne hu).trans (by rw [hvalue]; rfl)
    | verbatim d h =>
      obtain rfl := (List.cons.inj heq).2
      exact (readEscape_of_ne h.1).trans (by rw [unescaped_of_not_mem h.2]; rfl)
    | unicode e =>
      obtain rfl := (List.cons.inj heq).2
      exact readEscape_unicode_eq_ok_iff.mpr ⟨e, rfl, rfl⟩

/-! ## Strings -/

theorem readString_escape (h : readEscape cs = .ok (c, rest)) :
    readString ('\\' :: cs) = (readString rest).map fun (value, rest) => (c :: value, rest) := by
  rw [readString.eq_def]
  simp only
  split
  · next heq => simp [h] at heq
  · next heq =>
    rw [h] at heq
    cases heq
    rfl

theorem readString_escape_error {fault : LexFaultAt} (h : readEscape cs = .error fault) :
    readString ('\\' :: cs) = .error fault := by
  rw [readString.eq_def]
  simp only
  split
  · next heq =>
    rw [h] at heq
    cases heq
    rfl
  · next heq => simp [h] at heq

theorem readString_plain (hquote : c ≠ '"') (hbackslash : c ≠ '\\')
    (hline : ¬ (c = '\n' ∨ c = '\r')) :
    readString (c :: cs) = (readString cs).map fun (value, rest) => (c :: value, rest) := by
  rw [readString.eq_def]
  split
  · next heq => cases heq
  · next heq => exact absurd (List.cons.inj heq).1 hquote
  · next heq => exact absurd (List.cons.inj heq).1 hbackslash
  · next heq =>
    obtain ⟨rfl, rfl⟩ := List.cons.inj heq
    rw [if_neg hline]

theorem readString_item (item : StringItem) (rest : List Char) :
    readString (item.text ++ rest) =
      (readString rest).map fun (value, rest) => (item.value :: value, rest) := by
  have hescape : ∀ body, item.text = '\\' :: body → readString (item.text ++ rest) =
      (readString rest).map fun (value, rest) => (item.value :: value, rest) := by
    intro body hbody
    rw [hbody]
    exact readString_escape (readEscape_eq_ok_iff.mpr ⟨item, by rw [hbody]; rfl, rfl⟩)
  cases item with
  | plain c h =>
    obtain ⟨hquote, hbackslash, hnewline, hreturn⟩ := h
    exact readString_plain hquote hbackslash (not_or.mpr ⟨hnewline, hreturn⟩)
  | control | verbatim | unicode => exact hescape _ rfl

/-- The items of a string are read one after the other, whatever stands behind them. -/
theorem readString_items (items : List StringItem) (rest : List Char) :
    readString (items.flatMap StringItem.text ++ rest) =
      (readString rest).map fun (value, rest) => (items.map StringItem.value ++ value, rest) := by
  induction items with
  | nil => cases h : readString rest <;> simp [h, Except.map]
  | cons item items ih =>
    rw [List.flatMap_cons, List.append_assoc, readString_item, ih]
    cases readString rest <;> rfl

/-- **A string is its items and the closing quote**, and its value is what the items stand for. -/
theorem readString_eq_ok_iff {value : List Char} :
    readString cs = .ok (value, rest) ↔ ∃ items : List StringItem,
      cs = items.flatMap StringItem.text ++ '"' :: rest ∧ items.map StringItem.value = value := by
  constructor
  · intro h
    fun_induction readString cs generalizing value rest with
    | case1 => cases h
    | case2 tail =>
      cases h
      exact ⟨[], rfl, rfl⟩
    | case3 => cases h
    | case4 tail c tail' hescape _ ih =>
      obtain ⟨_, _, hvalue, h⟩ := of_map_eq_ok h
      cases h
      obtain ⟨items, rfl, rfl⟩ := ih hvalue
      obtain ⟨item, htext, rfl⟩ := readEscape_eq_ok_iff.mp hescape
      exact ⟨item :: items, by rw [htext, List.flatMap_cons, List.append_assoc], rfl⟩
    | case5 => cases h
    | case6 c tail hquote hbackslash hline ih =>
      obtain ⟨_, _, hvalue, h⟩ := of_map_eq_ok h
      cases h
      obtain ⟨items, rfl, rfl⟩ := ih hvalue
      obtain ⟨hnewline, hreturn⟩ := not_or.mp hline
      exact ⟨.plain c ⟨hquote, hbackslash, hnewline, hreturn⟩ :: items, rfl, rfl⟩
  · rintro ⟨items, rfl, rfl⟩
    rw [readString_items, readString]
    simp [Except.map]

end GraphQLSyntax
