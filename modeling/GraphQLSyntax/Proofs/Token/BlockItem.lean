import GraphQLSyntax.Token.StringLiteral

/-!
# What block strings are made of

Behind its opening quotes a block string is read from left to right in items. An item is a backslash
in front of three quotes, which stands for the quotes, or any other character that three quotes do
not begin with. The first three quotes that no backslash stands in front of close the string.

* `readBlockString_eq_ok_iff`: a block string is read exactly if its items come to closing quotes.
* `Itemized.behind`: behind the closing quotes anything can follow.
* `itemized_escapeTripleQuotes`: each text can be written in a block string, with a backslash in front of
  three quotes, unless it ends in a quote or a backslash.
-/

namespace GraphQLSyntax

def tripleQuote : List Char := ['"', '"', '"']

/-- Three quotes that do not close the block string. -/
def escapedTripleQuote : List Char := '\\' :: tripleQuote

/-- What can stand in a block string. -/
inductive BlockItem
  | quotes
  | char (c : Char)

namespace BlockItem

def text : BlockItem → List Char
  | quotes => escapedTripleQuote
  | char c => [c]

/-- What the item adds to the raw content. -/
def raw : BlockItem → List Char
  | quotes => tripleQuote
  | char c => [c]

end BlockItem

/-- Read from left to right the text is these items, and `rest` is left. -/
inductive Itemized : List Char → List BlockItem → List Char → Prop
  | nil {rest} : Itemized rest [] rest
  | quotes {cs items rest} (others : Itemized cs items rest) :
      Itemized (escapedTripleQuote ++ cs) (.quotes :: items) rest
  | char {c cs items rest} (hclosing : ¬ tripleQuote <+: c :: cs)
      (hescaped : ¬ escapedTripleQuote <+: c :: cs) (others : Itemized cs items rest) :
      Itemized (c :: cs) (.char c :: items) rest

variable {cs rest raw : List Char} {items : List BlockItem}

theorem Itemized.eq_append (h : Itemized cs items rest) :
    cs = items.flatMap BlockItem.text ++ rest := by
  induction h with
  | nil => rfl
  | quotes _ ih => rw [List.flatMap_cons, List.append_assoc, ← ih]; rfl
  | char _ _ _ ih => rw [List.flatMap_cons, List.append_assoc, ← ih]; rfl

/-- What begins a text that closing quotes follow is seen without what stands behind them. -/
private theorem isPrefix_behind {pattern : List Char} {c : Char} (hlength : pattern.length ≤ 4)
    (rest' : List Char) (h : pattern <+: c :: (cs ++ tripleQuote ++ rest')) :
    pattern <+: c :: (cs ++ (tripleQuote ++ rest)) := by
  have hshort : pattern.length ≤ (c :: (cs ++ tripleQuote)).length := by
    simp only [List.length_cons, List.length_append, tripleQuote, List.length_nil]
    omega
  have hseen : pattern <+: c :: (cs ++ tripleQuote) :=
    List.prefix_of_prefix_length_le h (List.prefix_append (c :: (cs ++ tripleQuote)) rest') hshort
  rw [← List.append_assoc]
  exact hseen.trans (List.prefix_append (c :: (cs ++ tripleQuote)) rest)

/-- The items do not depend on what stands behind the closing quotes. -/
theorem Itemized.behind (h : Itemized cs items (tripleQuote ++ rest)) (rest' : List Char) :
    Itemized (items.flatMap BlockItem.text ++ tripleQuote ++ rest') items
      (tripleQuote ++ rest') := by
  generalize hclose : tripleQuote ++ rest = back at h
  induction h with
  | nil => exact .nil
  | quotes _ ih =>
    rw [List.flatMap_cons, List.append_assoc, List.append_assoc, ← List.append_assoc _ tripleQuote]
    exact .quotes (ih hclose)
  | @char c cs items back hclosing hescaped others ih =>
    obtain rfl := others.eq_append
    subst hclose
    exact .char (fun h => hclosing (isPrefix_behind (by decide) rest' h))
      (fun h => hescaped (isPrefix_behind (by decide) rest' h)) (ih rfl)

/-! ## Reading -/

/-- A block string is read exactly if its items come to closing quotes. -/
theorem readBlockString_eq_ok_iff :
    readBlockString cs = .ok (raw, rest) ↔
      ∃ items, Itemized cs items (tripleQuote ++ rest) ∧ raw = items.flatMap BlockItem.raw := by
  constructor
  · intro h
    fun_induction readBlockString cs generalizing raw rest with
    | case1 => cases h
    | case2 tail =>
      cases h
      exact ⟨[], .nil, rfl⟩
    | case3 tail ih =>
      obtain ⟨raw, rest, hread, h⟩ := of_map_eq_ok h
      cases h
      obtain ⟨items, hitems, rfl⟩ := ih hread
      exact ⟨.quotes :: items, .quotes hitems, rfl⟩
    | case4 c tail hclosing hescaped ih =>
      obtain ⟨raw, rest, hread, h⟩ := of_map_eq_ok h
      cases h
      obtain ⟨items, hitems, rfl⟩ := ih hread
      refine ⟨.char c :: items, .char ?_ ?_ hitems, rfl⟩
      · rintro ⟨back, heq⟩
        obtain ⟨rfl, rfl⟩ := List.cons.inj heq
        exact hclosing back rfl rfl
      · rintro ⟨back, heq⟩
        obtain ⟨rfl, rfl⟩ := List.cons.inj heq
        exact hescaped back rfl rfl
  · rintro ⟨items, hitems, rfl⟩
    -- The end is an index of `Itemized`, so the induction needs a variable for it.
    generalize hclose : tripleQuote ++ rest = back at hitems
    induction hitems with
    | nil =>
      subst hclose
      rfl
    | @quotes cs items _ _ ih =>
      show (readBlockString cs).map _ = _
      rw [ih hclose]
      rfl
    | char hclosing hescaped _ ih =>
      rw [readBlockString, ih hclose]
      · rfl
      · rintro tail rfl rfl
        exact hclosing ⟨tail, rfl⟩
      · rintro tail rfl rfl
        exact hescaped ⟨tail, rfl⟩

/-- Without closing quotes the text ends in the block string. -/
theorem readBlockString_error {stuck : LexFaultAt} (h : readBlockString cs = .error stuck) :
    stuck = ⟨.unterminatedBlockString, []⟩ := by
  fun_induction readBlockString cs with
  | case1 => exact (Except.error.inj h).symm
  | case2 => cases h
  | case3 tail ih | case4 c tail _ _ ih =>
    cases hread : readBlockString tail with
    | error stuck' =>
      rw [hread] at h ih
      exact ih h
    | ok result =>
      rw [hread] at h
      cases h

/-! ## Writing -/

/-- The text with a backslash in front of three quotes, wherever they stand. -/
def escapeTripleQuotes : List Char → List Char
  | '"' :: '"' :: '"' :: cs => escapedTripleQuote ++ escapeTripleQuotes cs
  | c :: cs => c :: escapeTripleQuotes cs
  | [] => []

/-- Where the escaped text begins with a quote, the text does. -/
private theorem of_escapeTripleQuotes_eq_quote {back tail : List Char} (hne : raw ≠ [])
    (h : escapeTripleQuotes raw ++ back = '"' :: tail) :
    ∃ more, raw = '"' :: more ∧ ¬ tripleQuote <+: raw ∧
      escapeTripleQuotes more ++ back = tail := by
  unfold escapeTripleQuotes at h
  split at h
  · cases (List.cons.inj h).1
  · next c cs hquotes =>
    obtain ⟨rfl, htail⟩ := List.cons.inj h
    refine ⟨cs, rfl, ?_, htail⟩
    rintro ⟨more, heq⟩
    exact hquotes more rfl (List.cons.inj heq).2.symm
  · exact absurd rfl hne

/-- Three quotes are left nowhere in the escaped text, nor do those at its end go on behind it. -/
private theorem not_isPrefix_escapeTripleQuotes (hne : raw ≠ []) (hlast : raw.getLast? ≠ some '"')
    (back : List Char) : ¬ tripleQuote <+: escapeTripleQuotes raw ++ back := by
  rintro ⟨tail, h⟩
  obtain ⟨more, rfl, hquotes, h⟩ := of_escapeTripleQuotes_eq_quote hne h.symm
  have hmore : more ≠ [] := by
    rintro rfl
    exact hlast rfl
  obtain ⟨more, rfl, -, h⟩ := of_escapeTripleQuotes_eq_quote hmore h
  have hmore' : more ≠ [] := by
    rintro rfl
    exact hlast rfl
  obtain ⟨more, rfl, -, -⟩ := of_escapeTripleQuotes_eq_quote hmore' h
  exact hquotes ⟨more, rfl⟩

private theorem getLast?_ne_of_append (front : List Char) {c : Char}
    (h : (front ++ cs).getLast? ≠ some c) : cs.getLast? ≠ some c := by
  intro hc
  rw [List.getLast?_append, hc] at h
  exact h rfl

/-- The items of an escaped text come to the quotes behind it, and the text is their content. -/
theorem itemized_escapeTripleQuotes (hquote : raw.getLast? ≠ some '"')
    (hbackslash : raw.getLast? ≠ some '\\') (rest : List Char) :
    ∃ items, Itemized (escapeTripleQuotes raw ++ (tripleQuote ++ rest)) items
      (tripleQuote ++ rest) ∧ raw = items.flatMap BlockItem.raw := by
  fun_induction escapeTripleQuotes raw with
  | case1 cs ih =>
    obtain ⟨items, hitems, rfl⟩ := ih (getLast?_ne_of_append tripleQuote hquote)
      (getLast?_ne_of_append tripleQuote hbackslash)
    refine ⟨.quotes :: items, ?_, rfl⟩
    rw [List.append_assoc]
    exact .quotes hitems
  | case2 c cs hquotes ih =>
    obtain ⟨items, hitems, hraw⟩ := ih (getLast?_ne_of_append [c] hquote)
      (getLast?_ne_of_append [c] hbackslash)
    refine ⟨.char c :: items, .char ?_ ?_ hitems, by rw [List.flatMap_cons, ← hraw]; rfl⟩
    · have hescaped : escapeTripleQuotes (c :: cs) = c :: escapeTripleQuotes cs := by
        rw [escapeTripleQuotes]
        exact hquotes
      have hclosing := not_isPrefix_escapeTripleQuotes (List.cons_ne_nil c cs) hquote
        (tripleQuote ++ rest)
      rwa [hescaped] at hclosing
    · rintro ⟨tail, h⟩
      obtain ⟨rfl, htail⟩ := List.cons.inj h
      have hne : cs ≠ [] := by
        rintro rfl
        exact hbackslash rfl
      exact not_isPrefix_escapeTripleQuotes hne (getLast?_ne_of_append ['\\'] hquote)
        (tripleQuote ++ rest) ⟨tail, htail⟩
  | case3 => exact ⟨[], .nil, rfl⟩

end GraphQLSyntax
