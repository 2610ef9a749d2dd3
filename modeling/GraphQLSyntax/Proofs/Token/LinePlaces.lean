import GraphQLSyntax.Proofs.Token.FaultPlace
import GraphQLSyntax.Proofs.Token.Layout
import GraphQLSyntax.Proofs.Token.Lines

/-!
# Places line by line

Two texts with a line end between them are scanned as the first and then the second. All that the
second gives, tokens and faults, is given behind the bytes of the first and the line end.

* `Scanner.Behind.remaining`: more text in front of a scanner moves what it gives.
* `Scanner.remaining_line`: the tokens of the first text come first, and then what the second gives.
* `lex_line`: both together, for sources.
-/

namespace GraphQLSyntax

/-- The token with so many more bytes in front of it. -/
def Token.behind (bytes : Nat) (t : Token) : Token where
  kind := t.kind
  start := t.start + bytes
  stop := t.stop + bytes

/-- The fault with so many more bytes in front of it. -/
def LexError.behind (bytes : Nat) (e : LexError) : LexError where
  fault := e.fault
  offset := e.offset + bytes

namespace Scanner

/-! ## More text in front -/

/-- The second scanner has ahead what the first has, and so many more bytes in front of it. -/
structure Behind (bytes : Nat) (s t : Scanner) : Prop where
  ahead : t.ahead = s.ahead
  size : t.source.utf8ByteSize = s.source.utf8ByteSize + bytes

namespace Behind

variable {bytes : Nat} {s t : Scanner}

theorem offsetOf (h : Behind bytes s t) {rest : List Char} (hrest : rest <:+ s.source.toList) :
    t.offsetOf rest = s.offsetOf rest + bytes := by
  have hle := byteLength_le_of_suffix hrest
  rw [byteLength_toList] at hle
  rw [Scanner.offsetOf, Scanner.offsetOf, h.size]
  omega

theorem endToken (h : Behind bytes s t) : t.endToken = s.endToken.behind bytes := by
  rw [Scanner.endToken, Scanner.endToken, h.size]
  rfl

/-- One scan gives the same, moved, and keeps the scanners alike. -/
theorem scan (h : Behind bytes s t) (hs : s.Valid) :
    t.scan.1 = (s.scan.1.map (Token.behind bytes)).mapError (LexError.behind bytes) ∧
      Behind bytes s.scan.2 t.scan.2 := by
  unfold Scanner.scan
  rw [h.ahead]
  cases hskip : skipIgnored .blanks s.ahead with
  | nil => exact ⟨by rw [h.endToken]; rfl, rfl, h.size⟩
  | cons c cs =>
    have hlexeme : c :: cs <:+ s.source.toList :=
      (hskip ▸ skipIgnored_suffix .blanks s.ahead : c :: cs <:+ s.ahead).trans hs
    have hrest := (lexeme_suffix c cs).trans ((List.suffix_cons c cs).trans hlexeme)
    refine ⟨?_, rfl, h.size⟩
    cases hk : (lexeme c cs).outcome with
    | ok k =>
      simp only [hk, h.offsetOf hlexeme, h.offsetOf hrest]
      rfl
    | error stuck =>
      simp only [hk, h.offsetOf ((lexeme_stuck hk).trans hlexeme)]
      rfl

/-- All that a scanner gives is moved by the bytes in front of it. -/
theorem remaining (h : Behind bytes s t) (hs : s.Valid) :
    t.remaining.1 =
      (s.remaining.1.map (·.map (Token.behind bytes))).mapError (LexError.behind bytes) := by
  induction hn : s.ahead.length using Nat.strongRecOn generalizing s t with
  | ind n ih =>
    obtain ⟨hitem, hbehind⟩ := h.scan hs
    rcases hscan : s.scan with ⟨e | token, s'⟩
    · rw [hscan] at hitem
      rw [remaining_of_error hscan, remaining_of_error (Prod.ext hitem rfl)]
      rfl
    · rw [hscan] at hitem hbehind
      have hscan' : t.scan = (.ok (token.behind bytes), t.scan.2) := Prod.ext hitem rfl
      cases hend : token.isEnd with
      | true =>
        rw [remaining_of_end hscan hend, remaining_of_end hscan' hend]
        rfl
      | false =>
        have hlt := length_ahead_lt hscan hend
        have hothers := ih _ (hn ▸ hlt) hbehind (hs.scan hscan hend).1 rfl
        rw [remaining_of_token hscan hend, remaining_of_token hscan' hend, hothers]
        cases s'.remaining.1 <;> rfl

end Behind

/-! ## A line end and another text behind -/

/-- What a scanner gives depends on its first scan alone. -/
private theorem remaining_congr {s t : Scanner} (h : s.scan = t.scan) :
    s.remaining.1 = t.remaining.1 := by
  rcases hscan : t.scan with ⟨e | token, t'⟩
  · rw [remaining_of_error hscan, remaining_of_error (h.trans hscan)]
  · cases hend : token.isEnd with
    | true => rw [remaining_of_end hscan hend, remaining_of_end (h.trans hscan) hend]
    | false => rw [remaining_of_token hscan hend, remaining_of_token (h.trans hscan) hend]

/-- A scanner on the text of `s` with a line end and `second` behind it, as far as `s` is. -/
def withLine (s : Scanner) (second : String) : Scanner where
  source := s.source ++ "\n" ++ second
  ahead := s.ahead ++ '\n' :: second.toList

/-- The same scanner in front of `second`. -/
def behindLine (s : Scanner) (second : String) : Scanner where
  source := s.source ++ "\n" ++ second
  ahead := second.toList

variable {s s' : Scanner} {token : Token} (second : String)

theorem behind_behindLine (s : Scanner) (second : String) :
    Behind (s.source.utf8ByteSize + 1) (ofSource second) (s.behindLine second) where
  ahead := rfl
  size := by
    have hline : "\n".utf8ByteSize = 1 := rfl
    rw [behindLine, String.utf8ByteSize_append, String.utf8ByteSize_append, hline]
    show _ = second.utf8ByteSize + _
    omega

/-- A place in the first text stays where it is. -/
private theorem offsetOf_withLine (rest : List Char) :
    (s.withLine second).offsetOf (rest ++ '\n' :: second.toList) = s.offsetOf rest := by
  have hsize : (s.withLine second).source.utf8ByteSize =
      second.utf8ByteSize + (s.source.utf8ByteSize + 1) := (behind_behindLine s second).size
  have hline : '\n'.utf8Size = 1 := rfl
  rw [offsetOf, offsetOf, hsize, byteLength_append, byteLength_cons, byteLength_toList, hline]
  omega

/-- At the end of the first text the second begins. -/
private theorem scan_withLine_of_end (h : s.scan = (.ok token, s')) (hend : token.isEnd = true) :
    (s.withLine second).scan = (s.behindLine second).scan := by
  have hskip : skipIgnored .blanks (s.withLine second).ahead =
      skipIgnored .blanks (s.behindLine second).ahead :=
    skipIgnored_line_of_nil (scan_of_end h hend).2.2 second.toList
  unfold scan
  rw [hskip]
  rfl

/-- A token of the first text is scanned as if it stood alone. -/
private theorem scan_withLine_of_token (h : s.scan = (.ok token, s'))
    (hend : token.isEnd = false) :
    (s.withLine second).scan = (.ok token, s'.withLine second) := by
  rcases scan_eq_ok h with rfl | ⟨c, cs, k, hskip, hlexeme, rfl, rfl⟩
  · cases hend
  have hwhole : lexeme c (cs ++ '\n' :: second.toList) =
      ⟨.ok k, (lexeme c cs).rest ++ '\n' :: second.toList⟩ :=
    lexeme_line (by rw [← hlexeme]) second.toList
  have hskip' : skipIgnored .blanks (s.withLine second).ahead =
      c :: (cs ++ '\n' :: second.toList) := skipIgnored_line_of_cons hskip second.toList
  have hstart := offsetOf_withLine (s := s) second (c :: cs)
  have hstop := offsetOf_withLine (s := s) second (lexeme c cs).rest
  rw [List.cons_append] at hstart
  rw [scan, hskip']
  simp only [hwhole, hstart, hstop]
  rfl

/-- The tokens of the first text come first, and behind them what the second text gives. -/
theorem remaining_line {tokens : List Token} (h : s.remaining.1 = .ok tokens) :
    (s.withLine second).remaining.1 =
      (s.behindLine second).remaining.1.map (tokens.filter (!·.isEnd) ++ ·) := by
  induction hn : s.ahead.length using Nat.strongRecOn generalizing s tokens with
  | ind n ih =>
    rcases hscan : s.scan with ⟨e | token, s'⟩
    · rw [remaining_of_error hscan] at h
      cases h
    -- Where the first text ends, its scan goes over into that of the second.
    cases hend : token.isEnd with
    | true =>
      rw [remaining_of_end hscan hend] at h
      cases h
      rw [remaining_congr (scan_withLine_of_end second hscan hend),
        List.filter_cons_of_neg (by simp [hend])]
      cases (s.behindLine second).remaining.1 <;> rfl
    | false =>
      have hlt := length_ahead_lt hscan hend
      have hsource : s'.behindLine second = s.behindLine second := by
        rcases scan_eq_ok hscan with rfl | ⟨_, _, _, -, -, -, rfl⟩
        · cases hend
        · rfl
      rw [remaining_of_token hscan hend] at h
      cases hothers : s'.remaining.1 with
      | error e =>
        rw [hothers] at h
        cases h
      | ok others =>
        rw [hothers] at h
        cases h
        rw [remaining_of_token (scan_withLine_of_token second hscan hend) hend,
          ih _ (hn ▸ hlt) hothers rfl, hsource, List.filter_cons_of_pos (by simp [hend])]
        cases (s.behindLine second).remaining.1 <;> rfl

end Scanner

/-! ## Sources -/

/-- **Scanning goes line by line.** Two sources with a line end between them are scanned as the
tokens of the first without its end, and then those of the second behind it. Where the second has a
fault, it is the fault of both. -/
theorem lex_line {first second : String} {tokens : List Token} (h : lex first = .ok tokens) :
    ((∃ all, lex (first ++ "\n" ++ second) = .ok all) ↔ ∃ others, lex second = .ok others) ∧
    (∀ others, lex second = .ok others → lex (first ++ "\n" ++ second) =
      .ok (tokens.filter (!·.isEnd) ++ others.map (Token.behind (first.utf8ByteSize + 1)))) ∧
    ∀ e, lex second = .error e →
      lex (first ++ "\n" ++ second) = .error ⟨e.fault, e.offset + (first.utf8ByteSize + 1)⟩ := by
  have hstart : (Scanner.ofSource first).withLine second =
      .ofSource (first ++ "\n" ++ second) := by
    simp [Scanner.withLine, Scanner.ofSource]
  have hjoined : lex (first ++ "\n" ++ second) =
      (((lex second).map (·.map (Token.behind (first.utf8ByteSize + 1)))).mapError
        (LexError.behind (first.utf8ByteSize + 1))).map (tokens.filter (!·.isEnd) ++ ·) := by
    rw [lex, ← hstart, Scanner.remaining_line second h,
      (Scanner.behind_behindLine _ second).remaining (Scanner.valid_ofSource second)]
    rfl
  rw [hjoined]
  cases lex second with
  | error e =>
    refine ⟨⟨by rintro ⟨_, ⟨⟩⟩, by rintro ⟨_, ⟨⟩⟩⟩, by rintro _ ⟨⟩, ?_⟩
    rintro _ ⟨⟩
    rfl
  | ok others =>
    refine ⟨⟨fun _ => ⟨_, rfl⟩, fun _ => ⟨_, rfl⟩⟩, ?_, by rintro _ ⟨⟩⟩
    rintro _ ⟨⟩
    rfl

/-- The line end ends a comment. Behind it a source is read, or refused, as it would be alone. -/
theorem lex_line_of_comment :
    lex "a:15#é\n\"\"\"é\"\"\"-1" = .ok [⟨some (.name "a"), 0, 1⟩, ⟨some (punct .colon), 1, 2⟩,
        ⟨some (.int 15), 2, 4⟩, ⟨some (.string "é"), 8, 16⟩, ⟨some (.int (-1)), 16, 18⟩,
        ⟨none, 18, 18⟩] ∧
      lex "a:15#é\n2e%" = .error ⟨.expectedDigit '%', 10⟩ := by
  have hfirst : lex "a:15#é" = .ok [⟨some (.name "a"), 0, 1⟩, ⟨some (punct .colon), 1, 2⟩,
      ⟨some (.int 15), 2, 4⟩, ⟨none, 7, 7⟩] := rfl
  have hread : lex "\"\"\"é\"\"\"-1" = .ok [⟨some (.string "é"), 0, 8⟩,
      ⟨some (.int (-1)), 8, 10⟩, ⟨none, 10, 10⟩] := rfl
  have hrefused : lex "2e%" = .error ⟨.expectedDigit '%', 2⟩ := rfl
  have hjoined : "a:15#é" ++ "\n" ++ "\"\"\"é\"\"\"-1" = "a:15#é\n\"\"\"é\"\"\"-1" := rfl
  have hjoined' : "a:15#é" ++ "\n" ++ "2e%" = "a:15#é\n2e%" := rfl
  rw [← hjoined, ← hjoined']
  exact ⟨(lex_line hfirst).2.1 _ hread, (lex_line hfirst).2.2 _ hrefused⟩

end GraphQLSyntax
