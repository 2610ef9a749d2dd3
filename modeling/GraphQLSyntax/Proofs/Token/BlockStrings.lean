import GraphQLSyntax.Proofs.Token.BlockItem
import GraphQLSyntax.Proofs.Token.Tiling

/-!
# Block strings in a source

A scanner that comes to three quotes reads a block string. It succeeds exactly where items and
closing quotes follow, the token takes the text from quotes to quotes, and its value is the raw
content without the indentation of the document. Otherwise the fault is at the end of the source.

* `scans_block_strings`: block strings end at the first unescaped quotes and keep their content, and
  each content that does not end in a quote or a backslash can be written in one.
-/

namespace GraphQLSyntax

variable {body rest : List Char} {items : List BlockItem}

/-- A block string with this text between its quotes. -/
def blockLiteral (text : List Char) : List Char :=
  tripleQuote ++ text ++ tripleQuote

/-- The value of a block string with these items. -/
def blockValue (items : List BlockItem) : String :=
  String.ofList (dedent (items.flatMap BlockItem.raw))

/-- The lexeme at three quotes. -/
theorem lexeme_block (h : Itemized body items (tripleQuote ++ rest)) :
    lexeme '"' ('"' :: '"' :: body) = ⟨.ok (.string (blockValue items)), rest⟩ := by
  have hread := readBlockString_eq_ok_iff.mpr ⟨items, h, rfl⟩
  show Lexeme.ofReading ((readBlockString body).map _) body = _
  rw [hread]
  rfl

/-- What a block string without closing quotes comes to. -/
theorem lexeme_unterminated
    (h : ¬ ∃ items rest, Itemized body items (tripleQuote ++ rest)) :
    lexeme '"' ('"' :: '"' :: body) = ⟨.error ⟨.unterminatedBlockString, []⟩, body⟩ := by
  show Lexeme.ofReading ((readBlockString body).map _) body = _
  cases hread : readBlockString body with
  | error stuck =>
    obtain rfl := readBlockString_error hread
    rfl
  | ok result =>
    obtain ⟨items, hitems, -⟩ := readBlockString_eq_ok_iff.mp hread
    exact absurd ⟨items, result.2, hitems⟩ h

namespace Scanner

variable {s : Scanner} {front : List Char}

/-- What a scanner comes to at three quotes, with `front` in front of them and `body` behind. -/
structure ScansBlockString (s : Scanner) (front body : List Char) : Prop where
  /-- The token ends behind the first three quotes that are not escaped. -/
  token_iff : ∀ token, s.scan.1 = .ok token ↔
    ∃ items rest, Itemized body items (tripleQuote ++ rest) ∧
      token = ⟨some (.string (blockValue items)), byteLength front,
        byteLength (front ++ blockLiteral (items.flatMap BlockItem.text))⟩
  /-- Without such quotes the fault is at the end of the source. -/
  fails : (¬ ∃ items rest, Itemized body items (tripleQuote ++ rest)) →
    s.scan.1 = .error ⟨.unterminatedBlockString, s.source.utf8ByteSize⟩

theorem scan_block (hsource : s.source.toList = front ++ (tripleQuote ++ body))
    (hskip : skipIgnored .blanks s.ahead = tripleQuote ++ body)
    (h : Itemized body items (tripleQuote ++ rest)) :
    s.scan.1 = .ok ⟨some (.string (blockValue items)), byteLength front,
      byteLength (front ++ blockLiteral (items.flatMap BlockItem.text))⟩ := by
  have hstart : s.offsetOf ('"' :: '"' :: '"' :: body) = byteLength front := offsetOf_eq hsource
  have hstop : s.offsetOf rest =
      byteLength (front ++ blockLiteral (items.flatMap BlockItem.text)) := by
    refine offsetOf_eq (hsource.trans ?_)
    rw [h.eq_append, blockLiteral]
    simp only [List.append_assoc]
  have hahead : skipIgnored .blanks s.ahead = '"' :: '"' :: '"' :: body := hskip
  rw [scan, hahead]
  simp only [lexeme_block h, hstart, hstop]

theorem scan_unterminated (hskip : skipIgnored .blanks s.ahead = tripleQuote ++ body)
    (h : ¬ ∃ items rest, Itemized body items (tripleQuote ++ rest)) :
    s.scan.1 = .error ⟨.unterminatedBlockString, s.source.utf8ByteSize⟩ := by
  have hahead : skipIgnored .blanks s.ahead = '"' :: '"' :: '"' :: body := hskip
  rw [scan, hahead]
  simp only [lexeme_unterminated h, offsetOf, byteLength_nil, Nat.sub_zero]

end Scanner

/-- **Block strings end at the first unescaped quotes and keep their raw content.** It is what the
items in front of these quotes add up to, and any content can be written, with a backslash in front
of three quotes, that does not end in a quote or a backslash. -/
theorem scans_block_strings :
    (∀ (s : Scanner) (front body : List Char), s.source.toList = front ++ (tripleQuote ++ body) →
      skipIgnored .blanks s.ahead = tripleQuote ++ body → s.ScansBlockString front body) ∧
    ∀ raw : List Char, raw.getLast? ≠ some '"' → raw.getLast? ≠ some '\\' →
      lex (String.ofList (blockLiteral (escapeTripleQuotes raw))) =
        .ok [⟨some (.string (String.ofList (dedent raw))), 0,
            byteLength (blockLiteral (escapeTripleQuotes raw))⟩,
          ⟨none, byteLength (blockLiteral (escapeTripleQuotes raw)),
            byteLength (blockLiteral (escapeTripleQuotes raw))⟩] := by
  constructor
  · intro s front body hsource hskip
    refine ⟨fun token => ⟨fun htoken => ?_, ?_⟩, Scanner.scan_unterminated hskip⟩
    · by_cases hitems : ∃ items rest, Itemized body items (tripleQuote ++ rest)
      · obtain ⟨items, rest, hitems⟩ := hitems
        rw [Scanner.scan_block hsource hskip hitems] at htoken
        exact ⟨items, rest, hitems, (Except.ok.inj htoken).symm⟩
      · rw [Scanner.scan_unterminated hskip hitems] at htoken
        cases htoken
    · rintro ⟨items, rest, hitems, rfl⟩
      exact Scanner.scan_block hsource hskip hitems
  · intro raw hquote hbackslash
    obtain ⟨items, hitems, rfl⟩ := itemized_escapeTripleQuotes hquote hbackslash []
    exact lex_of_lexeme (by decide) (by decide) (lexeme_block hitems)

/-- Two backslashes and three quotes behind a comma, and four quotes at the end, of which the last
is left; and four quotes that are written into a block string. -/
theorem scans_block_strings_of_quotes :
    (Scanner.ofSource ",\"\"\"\\\\\"\"\"b\"\"\"\"").scan.1 =
        .ok ⟨some (.string "\\\"\"\"b"), 1, 13⟩ ∧
      lex "\"\"\"\\\"\"\"\"b\"\"\"" =
        .ok [⟨some (.string "\"\"\"\"b"), 0, 12⟩, ⟨none, 12, 12⟩] := by
  obtain ⟨hscans, hlex⟩ := scans_block_strings
  constructor
  · have hitems : Itemized "\\\\\"\"\"b\"\"\"\"".toList [.char '\\', .quotes, .char 'b']
        (tripleQuote ++ ['"']) :=
      .char (by decide) (by decide) (.quotes (.char (by decide) (by decide) .nil))
    exact ((hscans _ [','] _ rfl rfl).token_iff _).mpr ⟨_, _, hitems, rfl⟩
  · exact hlex "\"\"\"\"b".toList (by decide) (by decide)

end GraphQLSyntax
