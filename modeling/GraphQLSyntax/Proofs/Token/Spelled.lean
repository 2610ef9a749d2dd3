import GraphQLSyntax.Proofs.Token.Number
import GraphQLSyntax.Proofs.Token.Quoted
import GraphQLSyntax.Proofs.Token.Run
import GraphQLSyntax.Token.Lexeme

/-!
# Spelled tokens

Readable tokens can be scanned from their spellings. Behind its spelling a token ends wherever the
text does not go on with it, and the spaces of `spell` see to that except between a number and a
spread, which would be read as a number with a point. No document has the two in a row.

* `lexeme_spelling`: the lexeme of a token's spelling is the token.
* `Scans`: what the characters of a source are scanned as; `Scans.runOf` relates it to the scanner.
* `TokenKind.endsBefore_spelling`: where no space is needed, a token ends in front of a spelling.
* `scans_spaced`: the text with a space behind each token is scanned as the tokens.
-/

namespace GraphQLSyntax

/-! ## Single tokens -/

namespace TokenKind

def isNumber : TokenKind → Bool
  | int _ | float _ => true
  | punctuator _ | name _ | string _ => false

/-- Whether a token ends right in front of the character. -/
def endsAt : TokenKind → Char → Bool
  | punctuator _, _ => true
  | name _, c => !isNameChar c
  | int _, c | float _, c => !c.isDigit && !NumberLiteral.joinsNumber c
  | string _, c => c != '"'

/-- Whether the spelling of a token can begin with the character. -/
def beginsAt : TokenKind → Char → Bool
  | punctuator p, c => p.text.toList.head? == some c
  | name _, c => isNameStart c
  | int _, c | float _, c => c == '-' || c.isDigit
  | string _, c => c == '"'

/-- The text does not go on with a token in front of it. -/
def EndsBefore (k : TokenKind) (rest : List Char) : Prop :=
  ∀ c, rest.head? = some c → k.endsAt c = true

end TokenKind

/-- A name starts with nothing that another lexeme starts with. -/
private theorem of_isNameStart {c : Char} (h : isNameStart c = true) :
    Punctuator.ofChar? c = none ∧ c ≠ '.' ∧ c ≠ '#' ∧ isBlank c = false := by
  have hne : ∀ d, isNameStart d = false → c ≠ d := by
    rintro d hd rfl
    simp [h] at hd
  refine ⟨?_, hne '.' (by decide), hne '#' (by decide), ?_⟩
  · unfold Punctuator.ofChar?
    split
    case h_14 => rfl
    all_goals exact absurd h (by decide)
  · simp [isBlank, hne ' ' (by decide), hne '\t' (by decide), hne '\r' (by decide),
      hne '\n' (by decide), hne ',' (by decide), hne '\ufeff' (by decide)]

private theorem isAlpha_eq_false_of_isDigit {c : Char} (h : c.isDigit = true) :
    c.isAlpha = false := by
  simp only [Char.isDigit, Bool.and_eq_true, decide_eq_true_eq, ge_iff_le,
    UInt32.le_iff_toNat_le] at h
  show (decide (c.val ≥ 'A'.val ∧ c.val ≤ 'Z'.val) ||
    (decide (c.val ≥ 'a'.val) && decide (c.val ≤ 'z'.val))) = false
  simp only [Bool.or_eq_false_iff, ge_iff_le, Bool.and_eq_false_iff, decide_eq_false_iff_not,
    UInt32.le_iff_toNat_le]
  have hupper : '9'.val.toNat < 'A'.val.toNat := by decide
  have hlower : '9'.val.toNat < 'a'.val.toNat := by decide
  omega

/-- Neither does a number. -/
theorem of_isNumberStart {c : Char} (h : c = '-' ∨ c.isDigit = true) :
    Punctuator.ofChar? c = none ∧ c ≠ '.' ∧ c ≠ '#' ∧ isBlank c = false ∧
      isNameStart c = false := by
  have hne : ∀ d, d ≠ '-' → d.isDigit = false → c ≠ d := by
    rintro d hminus hd rfl
    simp [hminus, hd] at h
  refine ⟨?_, hne '.' (by decide) (by decide), hne '#' (by decide) (by decide), ?_, ?_⟩
  · unfold Punctuator.ofChar?
    split
    case h_14 => rfl
    all_goals exact absurd h (by decide)
  · simp [isBlank, hne ' ' (by decide) (by decide), hne '\t' (by decide) (by decide),
      hne '\r' (by decide) (by decide), hne '\n' (by decide) (by decide),
      hne ',' (by decide) (by decide), hne '\ufeff' (by decide) (by decide)]
  · rcases h with rfl | h
    · decide
    · simp [isNameStart, isAlpha_eq_false_of_isDigit h, hne '_' (by decide) (by decide)]

/-- So what begins like a number is read as one. -/
theorem lexeme_of_isNumberStart {c : Char} (h : c = '-' ∨ c.isDigit = true) (cs : List Char) :
    lexeme c cs = .number c cs := by
  obtain ⟨hpunctuator, hpoint, -, -, hname⟩ := of_isNumberStart h
  rw [lexeme, hpunctuator]
  simp only [hpoint, hname, h, if_true, if_false, Bool.false_eq_true]

/-- A number token is the literal that it is written as. -/
private theorem exists_literal {k : TokenKind} (hk : k.isReadable = true)
    (hnumber : k.isNumber = true) :
    ∃ n : NumberLiteral, n.WellFormed ∧ n.text = k.spelling ∧ n.kind? = some k := by
  cases k with
  | int value => exact exists_integer_literal value
  | float value => exact Double.exists_literal (by simpa [TokenKind.isReadable] using hk)
  | punctuator _ | name _ | string _ => cases hnumber

/-- The text of a number begins with a minus sign or a digit. -/
private theorem head_text {n : NumberLiteral} (h : n.WellFormed) :
    ∃ c cs, n.text = c :: cs ∧ (c = '-' ∨ c.isDigit = true) := by
  obtain ⟨c, cs, hcs⟩ := List.exists_cons_of_ne_nil h.whole.1
  cases hnegative : n.negative with
  | true => exact ⟨'-', _, by rw [NumberLiteral.text, hnegative]; rfl, .inl rfl⟩
  | false =>
    refine ⟨c, _, by rw [NumberLiteral.text, hnegative, hcs]; rfl, .inr ?_⟩
    exact h.whole.2 c (by simp [hcs])

private theorem lexeme_number {k : TokenKind} (hk : k.isReadable = true)
    (hnumber : k.isNumber = true) (rest : List Char) (h : NumberLiteral.EndsNumber rest) :
    ∃ c cs, k.spelling = c :: cs ∧ (c = '-' ∨ c.isDigit = true) ∧
      lexeme c (cs ++ rest) = ⟨.ok k, rest⟩ := by
  obtain ⟨n, hwf, htext, hkind⟩ := exists_literal hk hnumber
  obtain ⟨c, cs, hcs, hc⟩ := head_text hwf
  have hread : NumberLiteral.read (c :: (cs ++ rest)) = .ok (n, rest) := by
    rw [← List.cons_append, ← hcs]
    exact NumberLiteral.read_text hwf h
  refine ⟨c, cs, htext ▸ hcs, hc, ?_⟩
  simp only [lexeme_of_isNumberStart hc, Lexeme.number, hread, hkind]

private theorem lexeme_name {text : String} (hk : isName text = true) (rest : List Char)
    (h : ∀ c, rest.head? = some c → isNameChar c = false) :
    ∃ c cs, text.toList = c :: cs ∧ isNameStart c = true ∧
      lexeme c (cs ++ rest) = ⟨.ok (.name text), rest⟩ := by
  unfold isName at hk
  cases hcs : text.toList with
  | nil => simp [hcs] at hk
  | cons c cs =>
    simp only [hcs, Bool.and_eq_true, List.all_eq_true] at hk
    obtain ⟨hpunctuator, hpoint, -, -⟩ := of_isNameStart hk.1
    refine ⟨c, cs, rfl, hk.1, ?_⟩
    rw [lexeme, hpunctuator]
    simp only [hpoint, hk.1, if_true, if_false, Lexeme.name, takeWhile_append_of_ends hk.2 h,
      dropWhile_append_of_ends hk.2 h]
    rw [← hcs, String.ofList_toList]

/-- The lexeme of a token's spelling is the token. -/
theorem lexeme_spelling {k : TokenKind} (hk : k.isReadable = true) {rest : List Char}
    (h : k.EndsBefore rest) :
    ∃ c cs, k.spelling = c :: cs ∧ c ≠ '#' ∧ isBlank c = false ∧
      lexeme c (cs ++ rest) = ⟨.ok k, rest⟩ := by
  cases k with
  | punctuator p => cases p <;> exact ⟨_, _, rfl, by decide, by decide, rfl⟩
  | name text =>
    obtain ⟨c, cs, hcs, hc, hlexeme⟩ := lexeme_name hk rest fun c hc => by
      simpa [TokenKind.endsAt] using h c hc
    exact ⟨c, cs, hcs, (of_isNameStart hc).2.2.1, (of_isNameStart hc).2.2.2, hlexeme⟩
  | int value | float value =>
    obtain ⟨c, cs, hcs, hc, hlexeme⟩ := lexeme_number hk rfl rest fun c hc => by
      simpa [TokenKind.endsAt] using h c hc
    exact ⟨c, cs, hcs, (of_isNumberStart hc).2.2.1, (of_isNumberStart hc).2.2.2.1, hlexeme⟩
  | string value =>
    refine ⟨'"', value.toList.flatMap quotedChar ++ ['"'], rfl, by decide, by decide, ?_⟩
    show Lexeme.string _ = _
    rw [List.append_assoc]
    have hquote : rest.head? ≠ some '"' := fun hc => by simpa [TokenKind.endsAt] using h '"' hc
    exact (string_quoted fun _ => hquote).trans (by rw [String.ofList_toList])

/-- What the spelling of a token begins with. -/
theorem head_spelling {k : TokenKind} (hk : k.isReadable = true) :
    ∃ c cs, k.spelling = c :: cs ∧ k.beginsAt c = true := by
  cases k with
  | punctuator p => cases p <;> exact ⟨_, _, rfl, rfl⟩
  | name text =>
    obtain ⟨c, cs, hcs, hc, -⟩ := lexeme_name hk [] (by rintro c ⟨⟩)
    exact ⟨c, cs, hcs, hc⟩
  | int _ | float _ =>
    obtain ⟨c, cs, hcs, hc, -⟩ := lexeme_number hk rfl [] (by rintro c ⟨⟩)
    exact ⟨c, cs, hcs, by simpa [TokenKind.beginsAt] using hc⟩
  | string _ => exact ⟨_, _, rfl, rfl⟩

namespace TokenKind

/-- A space ends every token. -/
theorem endsBefore_space (k : TokenKind) (rest : List Char) : k.EndsBefore (' ' :: rest) := by
  rintro c ⟨⟩
  cases k <;> rfl

/-- Where no space is needed a token ends before the next one, unless that is a spread behind a
number. -/
theorem endsBefore_spelling {l r : TokenKind} (hr : r.isReadable = true)
    (hspace : needsSpace l r = false) (hspread : l.isNumber = true → r ≠ punct .spread)
    (rest : List Char) : l.EndsBefore (r.spelling ++ rest) := by
  obtain ⟨d, ds, hds, hd⟩ := head_spelling hr
  rw [hds]
  rintro c ⟨⟩
  -- Punctuators end by themselves, words and numbers in front of a mark or a quote, and strings in
  -- front of anything but a quote.
  cases l with
  | punctuator _ => rfl
  | name _ | int _ | float _ =>
    cases r with
    | punctuator p =>
      cases p <;> first
        | exact absurd rfl (hspread rfl)
        | (obtain rfl := Option.some.inj (beq_iff_eq.mp hd : some _ = some d); rfl)
    | string _ =>
      obtain rfl := beq_iff_eq.mp hd
      rfl
    | name _ | int _ | float _ => cases hspace
  | string _ =>
    have hne : d ≠ '"' := by
      rintro rfl
      cases r with
      | punctuator p => cases p <;> cases hd
      | name _ | int _ | float _ => cases hd
      | string _ => cases hspace
    simpa [endsAt] using hne

end TokenKind

/-! ## Sources -/

/-- What characters are scanned as, up to their end. -/
inductive Scans : List Char → List TokenKind → Prop
  | done {cs} (hskip : skipIgnored .blanks cs = []) : Scans cs []
  | token {cs c tail kind rest ks} (hskip : skipIgnored .blanks cs = c :: tail)
      (hlexeme : lexeme c tail = ⟨.ok kind, rest⟩) (hlength : rest.length < cs.length)
      (others : Scans rest ks) : Scans cs (kind :: ks)

namespace Scans

variable {cs : List Char} {ks : List TokenKind}

private theorem runFor (h : Scans cs ks) {n : Nat} (hn : cs.length < n) (source : String) :
    (Scanner.runFor n ⟨source, cs⟩).1.kinds = ks ∧
      ∃ token, (Scanner.runFor n ⟨source, cs⟩).1.last = .ok token := by
  induction h generalizing n with
  | done hskip =>
    obtain ⟨n, rfl⟩ : ∃ m, n = m + 1 := ⟨n - 1, by omega⟩
    simp [Scanner.runFor, Scanner.scan, hskip, Scanner.endToken, Token.isEnd, Scanner.Run.kinds]
  | token hskip hlexeme hlength others ih =>
    obtain ⟨n, rfl⟩ : ∃ m, n = m + 1 := ⟨n - 1, by omega⟩
    obtain ⟨hkinds, hlast⟩ := ih (n := n) (by omega)
    simp only [Scanner.runFor, Scanner.scan, hskip, hlexeme, Token.isEnd, Option.isNone_some,
      Bool.false_eq_true, if_false]
    exact ⟨by simp [Scanner.Run.kinds, ← hkinds], hlast⟩

/-- The scanner finds what the characters are scanned as, and then the end. -/
theorem runOf (h : Scans cs ks) :
    (Scanner.runOf (String.ofList cs)).kinds = ks ∧
      ∃ token, (Scanner.runOf (String.ofList cs)).last = .ok token := by
  have hrun := h.runFor (Nat.lt_succ_self _) (String.ofList cs)
  simpa [Scanner.runOf, Scanner.run, Scanner.ofSource, Scanner.bound] using hrun

/-- What can be skipped in front of a text changes nothing. -/
theorem behind {ds : List Char} (h : Scans ds ks)
    (hskip : skipIgnored .blanks cs = skipIgnored .blanks ds) (hlength : ds.length ≤ cs.length) :
    Scans cs ks := by
  cases h with
  | done hdone => exact .done (hskip.trans hdone)
  | token htoken hlexeme hshorter others =>
    exact .token (hskip.trans htoken) hlexeme (Nat.lt_of_lt_of_le hshorter hlength) others

/-- A space in front means nothing. -/
theorem space (h : Scans cs ks) : Scans (' ' :: cs) ks :=
  h.behind rfl (Nat.le_succ _)

theorem spelling {k : TokenKind} (hk : k.isReadable = true) (hends : k.EndsBefore cs)
    (h : Scans cs ks) : Scans (k.spelling ++ cs) (k :: ks) := by
  obtain ⟨c, tail, htail, hcomment, hblank, hlexeme⟩ := lexeme_spelling hk hends
  rw [htail, List.cons_append]
  have hlength : cs.length < (c :: (tail ++ cs)).length := by
    rw [List.length_cons, List.length_append]
    omega
  refine .token ?_ hlexeme hlength h
  simp [skipIgnored, hcomment, hblank]

end Scans

/-- No number stands directly in front of a spread. -/
def KeepsApart : List TokenKind → Prop
  | l :: r :: ks => (l.isNumber = true → r ≠ punct .spread) ∧ KeepsApart (r :: ks)
  | _ => True

theorem KeepsApart.of_append {front ks : List TokenKind} (h : KeepsApart (front ++ ks)) :
    KeepsApart ks := by
  induction front with
  | nil => exact h
  | cons k front ih =>
    apply ih
    rw [List.cons_append] at h
    cases htail : front ++ ks with
    | nil => trivial
    | cons l ls =>
      rw [htail] at h
      exact h.2

/-- A text of any tokens: their spellings with a space behind each. -/
def spaced (ks : List TokenKind) : List Char :=
  ks.flatMap fun k => k.spelling ++ [' ']

theorem scans_spaced {ks : List TokenKind} (h : Readable ks) : Scans (spaced ks) ks := by
  induction ks with
  | nil => exact .done rfl
  | cons k ks ih =>
    have hspelled := (ih (readable_cons.mp h).2).space.spelling (readable_cons.mp h).1
      (k.endsBefore_space _)
    simpa [spaced] using hspelled

end GraphQLSyntax
