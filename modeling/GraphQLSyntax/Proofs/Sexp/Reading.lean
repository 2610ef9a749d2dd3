import GraphQLSyntax.Proofs.Token.Spelled
import GraphQLSyntax.Sexp

/-!
# S-expressions from their text

The first character of an s-expression tells which sort it is, and a space or a parenthesis ends it
if it is a leaf. So its text can be read in one way only. The text does not tell atoms apart from
the marker of what is absent and from truth values: `Sexp.bare` is the tree that a reader finds,
where these are atoms too.

* `TokenKind.eq_of_spelling_append`: a token is known from its spelling and what stands behind.
* `text_bare`: the bare tree has the same text.
* `eq_of_text_append`: a legible tree is known from its text, whatever ends it.
* `text_eq_iff`: two trees have one text exactly if a reader finds the same in them.
-/

namespace GraphQLSyntax

/-- Two tokens that end where something else begins are the same if their texts are. -/
theorem TokenKind.eq_of_spelling_append {k l : TokenKind} (hk : k.isReadable = true)
    (hl : l.isReadable = true) {rest others : List Char} (hrest : k.EndsBefore rest)
    (hothers : l.EndsBefore others) (h : k.spelling ++ rest = l.spelling ++ others) :
    k = l ∧ rest = others := by
  obtain ⟨c, cs, hspelling, -, -, hlexeme⟩ := lexeme_spelling hk hrest
  obtain ⟨d, ds, hspelling', -, -, hlexeme'⟩ := lexeme_spelling hl hothers
  rw [hspelling, hspelling', List.cons_append, List.cons_append] at h
  obtain ⟨rfl, hbehind⟩ := List.cons.inj h
  rw [hbehind, hlexeme'] at hlexeme
  cases hlexeme
  exact ⟨rfl, rfl⟩

namespace Sexp

/-! ## Words -/

/-- Whether the character ends a leaf. -/
def isDelimiter (c : Char) : Bool :=
  c == ' ' || c == '(' || c == ')'

/-- A letter or an underscore, and then no space and no parenthesis. -/
def isWord (text : String) : Bool :=
  match text.toList with
  | [] => false
  | c :: cs => isNameStart c && cs.all (!isDelimiter ·)

theorem exists_of_isWord {text : String} (h : isWord text = true) :
    ∃ c cs, text.toList = c :: cs ∧ isNameStart c = true ∧ ∀ d ∈ cs, isDelimiter d = false := by
  unfold isWord at h
  split at h
  · cases h
  · next c cs htext =>
    simp only [Bool.and_eq_true, List.all_eq_true, Bool.not_eq_true'] at h
    exact ⟨c, cs, htext, h⟩

/-- No character of a name is any of those that mean something in an s-expression. -/
private theorem ne_of_isNameChar {c d : Char} (h : isNameChar c = true)
    (hd : isNameChar d = false) : c ≠ d := by
  rintro rfl
  rw [h] at hd
  cases hd

private theorem isNameChar_of_isNameStart {c : Char} (h : isNameStart c = true) :
    isNameChar c = true := by
  simp only [isNameStart, isNameChar, Char.isAlphanum, Bool.or_eq_true] at h ⊢
  rcases h with h | h
  · exact .inl (.inl h)
  · exact .inr h

private theorem isDelimiter_of_isNameChar {c : Char} (h : isNameChar c = true) :
    isDelimiter c = false := by
  simp [isDelimiter, ne_of_isNameChar h (d := ' ') (by decide),
    ne_of_isNameChar h (d := '(') (by decide), ne_of_isNameChar h (d := ')') (by decide)]

/-- A name is a word. -/
theorem isWord_of_isName {text : String} (h : isName text = true) : isWord text = true := by
  unfold isName at h
  unfold isWord
  cases htext : text.toList with
  | nil =>
    rw [htext] at h
    cases h
  | cons c cs =>
    simp only [htext, Bool.and_eq_true, List.all_eq_true, Bool.not_eq_true'] at h ⊢
    exact ⟨h.1, fun d hd => isDelimiter_of_isNameChar (h.2 d hd)⟩

/-- The text ends, or a leaf in front of it does. -/
def Stops (rest : List Char) : Prop :=
  ∀ c, rest.head? = some c → isDelimiter c = true

theorem stops_nil : Stops [] := by
  rintro c ⟨⟩

theorem stops_close (rest : List Char) : Stops (')' :: rest) := by
  rintro c ⟨⟩
  rfl

/-- Where a text stops, a word ends. -/
theorem eq_of_word_append {text other : String} (htext : isWord text = true)
    (hother : isWord other = true) {rest others : List Char} (hrest : Stops rest)
    (hothers : Stops others) (h : text.toList ++ rest = other.toList ++ others) :
    text = other ∧ rest = others := by
  have all_of_isWord : ∀ {text : String}, isWord text = true →
      ∀ c ∈ text.toList, (!isDelimiter c) = true := by
    intro text htext c hc
    obtain ⟨d, ds, hds, hd, hall⟩ := exists_of_isWord htext
    rw [hds] at hc
    rcases List.mem_cons.mp hc with rfl | hc
    · simp [isDelimiter_of_isNameChar (isNameChar_of_isNameStart hd)]
    · simp [hall c hc]
  have hstop : ∀ {rest}, Stops rest → ∀ c, rest.head? = some c → (!isDelimiter c) = false :=
    fun hrest c hc => by simp [hrest c hc]
  have htake := congrArg (List.takeWhile (!isDelimiter ·)) h
  rw [takeWhile_append_of_ends (all_of_isWord htext) (hstop hrest),
    takeWhile_append_of_ends (all_of_isWord hother) (hstop hothers)] at htake
  rw [htake] at h
  exact ⟨String.toList_inj.mp htake, List.append_cancel_left h⟩

/-! ## What a reader finds -/

mutual

/-- The tree that a reader finds in the text: the marker of what is absent and the truth values are
atoms there. -/
def bare : Sexp → Sexp
  | list items => list (bareAll items)
  | atom text => atom text
  | string value => string value
  | int value => int value
  | float value => float value
  | boolean value => atom (if value then "true" else "false")
  | absent => atom "nil"
  | varRef name => varRef name

def bareAll : List Sexp → List Sexp
  | [] => []
  | item :: items => item.bare :: bareAll items

end

theorem bareAll_eq (items : List Sexp) : bareAll items = items.map bare := by
  induction items with
  | nil => rfl
  | cons item items ih => rw [bareAll, ih, List.map_cons]

mutual

/-- The bare tree has the same text. -/
theorem text_bare : ∀ s : Sexp, s.bare.text = s.text
  | list [] => rfl
  | list (item :: items) => by
    simp only [bare, bareAll, text, text_bare item, textBehind_bareAll items]
  | boolean true | boolean false | absent => rfl
  | atom _ | string _ | int _ | float _ | varRef _ => rfl

theorem textBehind_bareAll : ∀ items : List Sexp, textBehind (bareAll items) = textBehind items
  | [] => rfl
  | item :: items => by
    simp only [bareAll, textBehind, text_bare item, textBehind_bareAll items]

end

mutual

/-- The trees that a reader can find: atoms are words, and floats are numbers. -/
def Legible : Sexp → Prop
  | list items => AllLegible items
  | atom text => isWord text = true
  | string _ | int _ => True
  | float value => value.isNaN = false
  | boolean _ | absent => False
  | varRef name => isWord name = true

def AllLegible : List Sexp → Prop
  | [] => True
  | item :: items => item.Legible ∧ AllLegible items

end

theorem allLegible_iff {items : List Sexp} : AllLegible items ↔ ∀ s ∈ items, s.Legible := by
  induction items with
  | nil => simp [AllLegible]
  | cons item items ih => simp [AllLegible, ih]

/-! ## First characters -/

/-- The sorts of s-expressions that a first character tells apart. -/
inductive Lead
  | parenthesised
  | word
  | quoted
  | number
  | reference
deriving DecidableEq

def lead : Sexp → Lead
  | list _ => .parenthesised
  | atom _ | boolean _ | absent => .word
  | string _ => .quoted
  | int _ | float _ => .number
  | varRef _ => .reference

/-- The sort of the s-expressions that begin with the character, if any do. -/
def leadOf? (c : Char) : Option Lead :=
  if c == '(' then some .parenthesised
  else if c == '"' then some .quoted
  else if c == '$' then some .reference
  else if isNameStart c then some .word
  else if c == '-' || c.isDigit then some .number
  else none

private theorem leadOf?_of_isNameStart {c : Char} (h : isNameStart c = true) :
    leadOf? c = some .word := by
  have hne : ∀ {d : Char}, isNameChar d = false → c ≠ d :=
    ne_of_isNameChar (isNameChar_of_isNameStart h)
  simp [leadOf?, h, hne (d := '(') (by decide), hne (d := '"') (by decide),
    hne (d := '$') (by decide)]

private theorem leadOf?_of_isNumberStart {c : Char} (h : c = '-' ∨ c.isDigit = true) :
    leadOf? c = some .number := by
  have hne : ∀ d, d ≠ '-' → d.isDigit = false → c ≠ d := by
    rintro d hminus hd rfl
    simp [hminus, hd] at h
  have hname := (of_isNumberStart h).2.2.2.2
  simp [leadOf?, hname, h, hne '(' (by decide) (by decide), hne '"' (by decide) (by decide),
    hne '$' (by decide) (by decide)]

/-- The text of a tree begins with a character that tells its sort. -/
theorem head_text {s : Sexp} (h : s.Legible) :
    ∃ c cs, s.text = c :: cs ∧ leadOf? c = some s.lead := by
  have hnumber : ∀ k : TokenKind, k.isReadable = true → k.isNumber = true →
      ∃ c cs, k.spelling = c :: cs ∧ leadOf? c = some .number := by
    intro k hk hnumber
    obtain ⟨c, cs, hcs, hc⟩ := head_spelling hk
    refine ⟨c, cs, hcs, leadOf?_of_isNumberStart ?_⟩
    cases k <;> simp_all [TokenKind.beginsAt, TokenKind.isNumber]
  cases s with
  | list items => cases items <;> exact ⟨_, _, rfl, rfl⟩
  | atom text =>
    obtain ⟨c, cs, hcs, hc, -⟩ := exists_of_isWord (by rwa [Legible] at h)
    exact ⟨c, cs, by rw [Sexp.text, hcs], leadOf?_of_isNameStart hc⟩
  | string value => exact ⟨_, _, rfl, rfl⟩
  | int value => exact hnumber (.int value) rfl rfl
  | float value =>
    rw [Legible] at h
    exact hnumber (.float value) (by simp [TokenKind.isReadable, h]) rfl
  | boolean _ | absent => rw [Legible] at h; exact h.elim
  | varRef name => exact ⟨_, _, rfl, rfl⟩

/-- Two trees whose texts begin alike are of one sort. -/
private theorem lead_eq_of_text_append {a b : Sexp} (ha : a.Legible) (hb : b.Legible)
    {rest others : List Char} (h : a.text ++ rest = b.text ++ others) : a.lead = b.lead := by
  obtain ⟨c, cs, hcs, hc⟩ := head_text ha
  obtain ⟨d, ds, hds, hd⟩ := head_text hb
  rw [hcs, hds, List.cons_append, List.cons_append] at h
  obtain ⟨rfl, -⟩ := List.cons.inj h
  exact Option.some.inj (hc.symm.trans hd)

/-- No tree begins with the end of a list. -/
private theorem text_append_ne_close {s : Sexp} (h : s.Legible) (rest others : List Char) :
    s.text ++ rest ≠ ')' :: others := by
  obtain ⟨c, cs, hcs, hc⟩ := head_text h
  rw [hcs, List.cons_append]
  intro heq
  obtain ⟨rfl, -⟩ := List.cons.inj heq
  exact absurd hc (by simp [show leadOf? ')' = none by decide])

/-! ## One reading -/

/-- Where a text stops, every token ends. -/
private theorem endsBefore_of_stops (k : TokenKind) {rest : List Char} (h : Stops rest) :
    k.EndsBefore rest := by
  intro c hc
  have hdelimiter := h c hc
  simp only [isDelimiter, Bool.or_eq_true, beq_iff_eq] at hdelimiter
  rcases hdelimiter with (rfl | rfl) | rfl <;> cases k <;> rfl

/-- What stands behind an item of a list ends it. -/
private theorem stops_textBehind (items : List Sexp) (rest : List Char) :
    Stops (textBehind items ++ ')' :: rest) := by
  cases items with
  | nil => exact stops_close rest
  | cons item items =>
    rintro c ⟨⟩
    rfl

/-- A leaf in front of a place where a text stops is known, and so is what stands behind it. -/
private theorem eq_of_leaf_append {a b : Sexp} (ha : a.Legible) (hb : b.Legible)
    (hleaf : a.lead ≠ .parenthesised) {rest others : List Char} (hrest : Stops rest)
    (hothers : Stops others) (h : a.text ++ rest = b.text ++ others) : a = b ∧ rest = others := by
  have hlead := lead_eq_of_text_append ha hb h
  have hliteral : ∀ {k l : TokenKind}, k.isReadable = true → l.isReadable = true →
      k.spelling ++ rest = l.spelling ++ others → k = l ∧ rest = others := fun hk hl =>
    TokenKind.eq_of_spelling_append hk hl (endsBefore_of_stops _ hrest)
      (endsBefore_of_stops _ hothers)
  have hfloat : ∀ {value : Double}, (float value).Legible →
      (TokenKind.float value).isReadable = true := by
    intro value hvalue
    rw [Legible] at hvalue
    simp [TokenKind.isReadable, hvalue]
  -- The lead tells the kinds of leaves apart, but for integers and floats, which both begin as
  -- numbers. Their spellings differ.
  cases a with
  | list items => exact absurd rfl hleaf
  | boolean _ | absent => exact (by rwa [Legible] at ha : False).elim
  | atom text =>
    cases b with
    | atom other =>
      rw [Legible] at ha hb
      obtain ⟨rfl, hbehind⟩ := eq_of_word_append ha hb hrest hothers h
      exact ⟨rfl, hbehind⟩
    | boolean _ | absent => exact (by rwa [Legible] at hb : False).elim
    | _ => cases hlead
  | string value =>
    cases b with
    | string other =>
      obtain ⟨⟨⟩, hbehind⟩ := hliteral (k := .string value) (l := .string other) rfl rfl h
      exact ⟨rfl, hbehind⟩
    | _ => cases hlead
  | int value =>
    cases b with
    | int other =>
      obtain ⟨⟨⟩, hbehind⟩ := hliteral (k := .int value) (l := .int other) rfl rfl h
      exact ⟨rfl, hbehind⟩
    | float other =>
      obtain ⟨⟨⟩, -⟩ := hliteral (k := .int value) (l := .float other) rfl (hfloat hb) h
    | _ => cases hlead
  | float value =>
    cases b with
    | int other =>
      obtain ⟨⟨⟩, -⟩ := hliteral (k := .float value) (l := .int other) (hfloat ha) rfl h
    | float other =>
      obtain ⟨⟨⟩, hbehind⟩ := hliteral (k := .float value) (l := .float other) (hfloat ha)
        (hfloat hb) h
      exact ⟨rfl, hbehind⟩
    | _ => cases hlead
  | varRef name =>
    cases b with
    | varRef other =>
      rw [Legible] at ha hb
      obtain ⟨rfl, hbehind⟩ := eq_of_word_append ha hb hrest hothers (List.cons.inj h).2
      exact ⟨rfl, hbehind⟩
    | _ => cases hlead

private theorem text_list_append (rest : List Char) :
    (list []).text ++ rest = '(' :: ')' :: rest :=
  rfl

private theorem text_list_cons_append (x : Sexp) (xs : List Sexp) (rest : List Char) :
    (list (x :: xs)).text ++ rest = '(' :: (x.text ++ (textBehind xs ++ ')' :: rest)) := by
  simp [text]

mutual

/-- Legible trees with one text, in front of places where it stops, are the same tree, and what
stands behind them is the same text. -/
theorem eq_of_text_append : ∀ {a b : Sexp} {rest others : List Char}, a.Legible → b.Legible →
    Stops rest → Stops others → a.text ++ rest = b.text ++ others → a = b ∧ rest = others
  | list items, b, rest, others, ha, hb, hrest, hothers, h => by
    have hlead := lead_eq_of_text_append ha hb h
    cases b with
    | list others =>
      rw [Legible] at ha hb
      -- An empty list closes where another one has a tree, and no tree begins with the parenthesis.
      cases items with
      | nil =>
        cases others with
        | nil => exact ⟨rfl, List.append_cancel_left h⟩
        | cons y ys =>
          rw [text_list_append, text_list_cons_append] at h
          exact absurd (List.cons.inj h).2.symm (text_append_ne_close hb.1 _ _)
      | cons x xs =>
        cases others with
        | nil =>
          rw [text_list_append, text_list_cons_append] at h
          exact absurd (List.cons.inj h).2 (text_append_ne_close ha.1 _ _)
        | cons y ys =>
          rw [text_list_cons_append, text_list_cons_append] at h
          obtain ⟨rfl, hbehind⟩ := eq_of_text_append ha.1 hb.1 (stops_textBehind xs _)
            (stops_textBehind ys _) (List.cons.inj h).2
          obtain ⟨rfl, hrest⟩ := eq_of_textBehind_append ha.2 hb.2 hbehind
          exact ⟨rfl, hrest⟩
    | _ => cases hlead
  | atom _, _, _, _, ha, hb, hrest, hothers, h | string _, _, _, _, ha, hb, hrest, hothers, h
  | int _, _, _, _, ha, hb, hrest, hothers, h | float _, _, _, _, ha, hb, hrest, hothers, h
  | boolean _, _, _, _, ha, hb, hrest, hothers, h | absent, _, _, _, ha, hb, hrest, hothers, h
  | varRef _, _, _, _, ha, hb, hrest, hothers, h =>
    eq_of_leaf_append ha hb (by simp [lead]) hrest hothers h

/-- The same for the items behind the first of a list, up to its end. -/
theorem eq_of_textBehind_append : ∀ {xs ys : List Sexp} {rest others : List Char},
    AllLegible xs → AllLegible ys →
      textBehind xs ++ ')' :: rest = textBehind ys ++ ')' :: others → xs = ys ∧ rest = others
  | [], [], _, _, _, _, h => ⟨rfl, (List.cons.inj h).2⟩
  | [], _ :: _, _, _, _, _, h => absurd (List.cons.inj h).1 (by decide)
  | _ :: _, [], _, _, _, _, h => absurd (List.cons.inj h).1 (by decide)
  | x :: xs, y :: ys, rest, others, hxs, hys, h => by
    rw [AllLegible] at hxs hys
    simp only [textBehind, List.cons_append, List.append_assoc, List.cons.injEq, true_and] at h
    obtain ⟨rfl, hbehind⟩ := eq_of_text_append hxs.1 hys.1 (stops_textBehind xs _)
      (stops_textBehind ys _) h
    obtain ⟨rfl, hrest⟩ := eq_of_textBehind_append hxs.2 hys.2 hbehind
    exact ⟨rfl, hrest⟩

end

/-- Two trees have one text exactly if a reader finds the same in them. -/
theorem text_eq_iff {a b : Sexp} (ha : a.bare.Legible) (hb : b.bare.Legible) :
    a.text = b.text ↔ a.bare = b.bare := by
  rw [← text_bare a, ← text_bare b]
  refine ⟨fun h => ?_, congrArg text⟩
  exact (eq_of_text_append ha hb stops_nil stops_nil (by rw [h])).1

end Sexp

end GraphQLSyntax
