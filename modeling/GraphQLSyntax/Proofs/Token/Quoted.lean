import GraphQLSyntax.Proofs.Token.StringItem
import GraphQLSyntax.Text.Written
import GraphQLSyntax.Token.Lexeme

/-!
# Strings as they are written

Quoted text is read as the characters that it was made of: what each of them is written as is an
item that stands for it. No control is among what is written.

* `exists_item_quotedChar`: a character is written as an item of a string.
* `isControl_of_mem_quoted`: quoted text holds no control.
* `Lexeme.string_literal`: items and a closing quote are read as what the items stand for, if no
  further quote follows that would make it a block string.
* `string_quoted`: a quoted string is read as the string.
-/

namespace GraphQLSyntax

/-! ## Characters -/

private theorem toNat_lt_of_isControl {c : Char} (h : isControl c = true) : c.toNat < 160 := by
  simp only [isControl, Bool.or_eq_true, Bool.and_eq_true, decide_eq_true_eq] at h
  omega

/-- What a character is written as stands for it. -/
theorem exists_item_quotedChar (c : Char) :
    ∃ item : StringItem, item.text = quotedChar c ∧ item.value = c := by
  unfold quotedChar
  split
  · exact ⟨.verbatim '"' (by simp [controlLetters]), rfl, rfl⟩
  · exact ⟨.verbatim '\\' (by simp [controlLetters]), rfl, rfl⟩
  · exact ⟨.control 'b' '\x08' (by decide), rfl, rfl⟩
  · exact ⟨.control 't' '\t' (by decide), rfl, rfl⟩
  · exact ⟨.control 'n' '\n' (by decide), rfl, rfl⟩
  · exact ⟨.control 'f' '\x0c' (by decide), rfl, rfl⟩
  · exact ⟨.control 'r' '\r' (by decide), rfl, rfl⟩
  · next hquote hbackslash _ _ hnewline _ hreturn =>
    split
    · next hcontrol =>
      have hsmall := toNat_lt_of_isControl hcontrol
      refine ⟨.unicode (.single c.toNat _ (spellsHex_iff.mpr ⟨by simp, ?_⟩) rfl (by omega)), rfl,
        Char.ofNat_toNat c⟩
      revert hsmall
      generalize c.toNat = n
      revert n
      decide +kernel
    · exact ⟨.plain c ⟨hquote, hbackslash, hnewline, hreturn⟩, rfl, rfl⟩

private theorem all_quotedChar (c : Char) :
    (quotedChar c).all (fun d => !isControl d) = true := by
  unfold quotedChar
  split
  case h_8 =>
    split
    · next hcontrol =>
      have hsmall := toNat_lt_of_isControl hcontrol
      revert hsmall
      generalize c.toNat = n
      revert n
      decide +kernel
    · next hcontrol => simpa using hcontrol
  all_goals rfl

/-- Quoted text holds no control. -/
theorem isControl_of_mem_quoted {cs : List Char} : ∀ d ∈ quoted cs, isControl d = false := by
  have hquote : isControl '"' = false := by decide
  intro d hd
  rcases List.mem_cons.mp hd with rfl | hd
  · exact hquote
  · rcases List.mem_append.mp hd with hd | hd
    · obtain ⟨c, -, hd⟩ := List.mem_flatMap.mp hd
      simpa using List.all_eq_true.mp (all_quotedChar c) d hd
    · rw [List.mem_singleton.mp hd]
      exact hquote

/-! ## Strings -/

/-- What stands between the quotes is items that stand for the characters of the string. -/
theorem exists_items_quoted (cs : List Char) : ∃ items : List StringItem,
    items.flatMap StringItem.text = cs.flatMap quotedChar ∧ items.map StringItem.value = cs := by
  induction cs with
  | nil => exact ⟨[], rfl, rfl⟩
  | cons c cs ih =>
    obtain ⟨items, htexts, hvalues⟩ := ih
    obtain ⟨item, htext, hvalue⟩ := exists_item_quotedChar c
    exact ⟨item :: items, by rw [List.flatMap_cons, List.flatMap_cons, htext, htexts],
      by rw [List.map_cons, hvalue, hvalues]⟩

/-- Behind its first quote a string is read up to the closing one if no two more quotes stand
there. -/
theorem Lexeme.string_eq {cs : List Char} (h : ¬ ['"', '"'] <+: cs) :
    string cs = ofReading
      ((readString cs).map fun (value, rest) => (.string (String.ofList value), rest)) cs := by
  unfold string
  split
  · exact absurd ⟨_, rfl⟩ h
  · rfl

/-- Items and a closing quote are read as a string unless there are no items and a quote follows:
that would open a block string. -/
theorem Lexeme.string_literal {items : List StringItem} {rest : List Char}
    (h : items = [] → rest.head? ≠ some '"') :
    string (items.flatMap StringItem.text ++ '"' :: rest) =
      ⟨.ok (.string (String.ofList (items.map StringItem.value))), rest⟩ := by
  have hblock : ¬ ['"', '"'] <+: items.flatMap StringItem.text ++ '"' :: rest := by
    apply StringItem.not_isPrefix
    rintro hitems ⟨tail, heq⟩
    obtain rfl := (List.cons.inj heq).2
    exact h hitems rfl
  rw [string_eq hblock, readString_eq_ok_iff.mpr ⟨items, rfl, rfl⟩]
  rfl

/-- So is a quoted string. -/
theorem string_quoted {cs rest : List Char} (h : cs = [] → rest.head? ≠ some '"') :
    Lexeme.string (cs.flatMap quotedChar ++ '"' :: rest) =
      ⟨.ok (.string (String.ofList cs)), rest⟩ := by
  obtain ⟨items, htexts, rfl⟩ := exists_items_quoted cs
  rw [← htexts]
  exact Lexeme.string_literal fun hitems => h (List.map_eq_nil_iff.mpr hitems)

end GraphQLSyntax
