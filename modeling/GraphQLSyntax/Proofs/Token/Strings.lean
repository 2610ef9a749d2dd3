import GraphQLSyntax.Proofs.Token.Calls

/-!
# Strings in a source

A scanner that comes to a quote reads a string, unless two more quotes stand behind it. It succeeds
exactly where items and a closing quote follow, and the token takes the text from quote to quote.
What was quoted is read back, and a Unicode escape that is none is a fault at its backslash. A line
end can stand in the text of a string, but only behind the backslash of an escape.

* `Scanner.scan_quoted`: quoting is undone by scanning.
* `Scanner.scan_string_iff`: a string is scanned exactly if it is a literal.
* `Scanner.readsUnicode`: the spellings of a Unicode escape agree, and nothing else is one.
* `Scanner.lineEndsEscaped_of_scan`: line ends in strings are escaped.
-/

namespace GraphQLSyntax

namespace Scanner

variable {s : Scanner} {front body rest cs : List Char} {items : List StringItem}

/-! ## At a quote -/

private theorem lexeme_quote (body : List Char) : lexeme '"' body = .string body :=
  rfl

theorem skipIgnored_quote (body : List Char) : skipIgnored .blanks ('"' :: body) = '"' :: body :=
  rfl

/-- Items between quotes are scanned as what they stand for, unless there are none and a quote
follows. -/
theorem scan_literal (hsource : s.source.toList = front ++ (stringLiteral items ++ rest))
    (hskip : skipIgnored .blanks s.ahead = stringLiteral items ++ rest)
    (h : items = [] → rest.head? ≠ some '"') :
    s.scan = (.ok ⟨some (.string (String.ofList (items.map StringItem.value))), byteLength front,
      byteLength (front ++ stringLiteral items)⟩, { s with ahead := rest }) := by
  have hbody := stringLiteral_append items rest
  have hstart := offsetOf_eq hsource
  have hstop : s.offsetOf rest = byteLength (front ++ stringLiteral items) := by
    rw [← List.append_assoc] at hsource
    exact offsetOf_eq hsource
  rw [hbody] at hskip hstart
  rw [scan, hskip]
  simp only [lexeme_quote, Lexeme.string_literal h, hstart, hstop]

/-- So it is at the start of a source. -/
theorem scan_ofSource_literal {source : String}
    (hsource : source.toList = stringLiteral items ++ rest)
    (h : items = [] → rest.head? ≠ some '"') :
    (ofSource source).scan = (.ok ⟨some (.string (String.ofList (items.map StringItem.value))), 0,
      byteLength (stringLiteral items)⟩, ⟨source, rest⟩) := by
  have hfront : (ofSource source).source.toList = [] ++ (stringLiteral items ++ rest) := hsource
  have hskip : skipIgnored .blanks (ofSource source).ahead = stringLiteral items ++ rest := by
    rw [ofSource, hsource]
    exact skipIgnored_quote _
  exact scan_literal hfront hskip h

/-! ## Quoted text -/

/-- **Quoting is undone by scanning.** The token of quoted text is the string and takes that text,
whatever follows, up to a quote behind the empty string. No control is in that text. -/
theorem scan_quoted (value following : String)
    (h : value = "" → following.toList.head? ≠ some '"') :
    (ofSource (String.ofList (quoted value.toList) ++ following)).scan =
        (.ok ⟨some (.string value), 0, byteLength (quoted value.toList)⟩,
          ⟨String.ofList (quoted value.toList) ++ following, following.toList⟩) ∧
      ∀ c ∈ quoted value.toList, ¬ (c.toNat ≤ 0x1F ∨ (0x7F ≤ c.toNat ∧ c.toNat ≤ 0x9F)) := by
  obtain ⟨items, htexts, hvalues⟩ := exists_items_quoted value.toList
  have hquoted : quoted value.toList = stringLiteral items := by
    rw [quoted, stringLiteral, htexts]
    rfl
  have hsource : (String.ofList (quoted value.toList) ++ following).toList =
      stringLiteral items ++ following.toList := by
    rw [String.toList_append, String.toList_ofList, hquoted]
  have hnext : items = [] → following.toList.head? ≠ some '"' := by
    rintro rfl
    exact h (String.toList_eq_nil_iff.mp hvalues.symm)
  constructor
  · rw [scan_ofSource_literal hsource hnext, hvalues, String.ofList_toList, ← hquoted]
  · intro c hc
    have hcontrol := isControl_of_mem_quoted c hc
    simp only [isControl, Bool.or_eq_false_iff, Bool.and_eq_false_iff, decide_eq_false_iff_not]
      at hcontrol
    omega

/-- A quote, a backslash and controls of both blocks, with a quote behind the text. -/
theorem scan_quoted_in_front_of_quote :
    "a\"\\\n\x00\x7fé" ≠ "" ∧
      (ofSource (String.ofList (quoted "a\"\\\n\x00\x7fé".toList) ++ "\"b")).scan.1 =
        .ok ⟨some (.string "a\"\\\n\x00\x7fé"), 0, 23⟩ := by
  have hne : "a\"\\\n\x00\x7fé" ≠ "" := by decide
  have hlength : byteLength (quoted "a\"\\\n\x00\x7fé".toList) = 23 := rfl
  have hscan := (scan_quoted "a\"\\\n\x00\x7fé" "\"b" fun hempty => absurd hempty hne).1
  rw [hlength] at hscan
  exact ⟨hne, by rw [hscan]⟩

/-! ## Literals -/

/-- A literal that begins no block string is scanned. -/
theorem scan_of_eq_literal (hsource : s.source.toList = front ++ '"' :: body)
    (hskip : skipIgnored .blanks s.ahead = '"' :: body) (hblock : ¬ ['"', '"'] <+: body)
    (hbody : '"' :: body = stringLiteral items ++ rest) :
    s.scan.1 = .ok ⟨some (.string (String.ofList (items.map StringItem.value))), byteLength front,
      byteLength (front ++ stringLiteral items)⟩ := by
  rw [scan_literal (hbody ▸ hsource) (hbody ▸ hskip)]
  rintro rfl hquote
  obtain ⟨tail, rfl⟩ := List.head?_eq_some_iff.mp hquote
  exact hblock ⟨tail, (List.cons.inj hbody).2.symm⟩

theorem scan_string_error {stuck : LexFaultAt} (hskip : skipIgnored .blanks s.ahead = '"' :: body)
    (hblock : ¬ ['"', '"'] <+: body) (h : readString body = .error stuck) :
    s.scan.1 = .error ⟨stuck.fault, s.offsetOf stuck.ahead⟩ := by
  rw [scan, hskip]
  simp only [lexeme_quote, Lexeme.string_eq hblock, h]
  rfl

/-- Nothing else is scanned at a quote. -/
theorem exists_literal_of_scan (hskip : skipIgnored .blanks s.ahead = '"' :: body)
    (hblock : ¬ ['"', '"'] <+: body) {token : Token} (h : s.scan.1 = .ok token) :
    ∃ items rest, '"' :: body = stringLiteral items ++ rest := by
  cases hread : readString body with
  | error stuck =>
    rw [scan_string_error hskip hblock hread] at h
    cases h
  | ok result =>
    obtain ⟨items, rfl, -⟩ := readString_eq_ok_iff.mp hread
    exact ⟨items, result.2, (stringLiteral_append items result.2).symm⟩

/-- **A string is scanned exactly if it is a literal**: its token has the characters that the items
stand for and goes from quote to quote. Otherwise scanning fails. -/
theorem scan_string_iff (hsource : s.source.toList = front ++ '"' :: body)
    (hskip : skipIgnored .blanks s.ahead = '"' :: body) (hblock : ¬ ['"', '"'] <+: body) :
    (∀ token, s.scan.1 = .ok token ↔ ∃ items rest, '"' :: body = stringLiteral items ++ rest ∧
      token = ⟨some (.string (String.ofList (items.map StringItem.value))), byteLength front,
        byteLength (front ++ stringLiteral items)⟩) ∧
      ((¬ ∃ items rest, '"' :: body = stringLiteral items ++ rest) → ∃ e, s.scan.1 = .error e) := by
  refine ⟨fun token => ⟨fun htoken => ?_, ?_⟩, fun hnone => ?_⟩
  · obtain ⟨items, rest, hbody⟩ := exists_literal_of_scan hskip hblock htoken
    rw [scan_of_eq_literal hsource hskip hblock hbody] at htoken
    exact ⟨items, rest, hbody, (Except.ok.inj htoken).symm⟩
  · rintro ⟨items, rest, hbody, rfl⟩
    exact scan_of_eq_literal hsource hskip hblock hbody
  · cases h : s.scan.1 with
    | error e => exact ⟨e, rfl⟩
    | ok token => exact absurd (exists_literal_of_scan hskip hblock h) hnone

/-- An item of each kind, behind a comma and in front of more. -/
theorem scan_string_of_each_item :
    (ofSource ",\"é\\n\\q\\u\x7be9\x7d\" a").scan.1 = .ok ⟨some (.string "é\nqé"), 1, 15⟩ := by
  have hsource : (ofSource ",\"é\\n\\q\\u\x7be9\x7d\" a").source.toList =
      [','] ++ '"' :: "é\\n\\q\\u\x7be9\x7d\" a".toList := rfl
  have hspells : SpellsHex ['e', '9'] 0xE9 := ⟨0, by decide⟩
  exact ((scan_string_iff hsource rfl (by decide)).1 _).mpr ⟨[.plain 'é' (by decide),
    .control 'n' '\n' (by decide), .verbatim 'q' (by simp [controlLetters]),
    .unicode (.braced 0xE9 _ hspells (by decide) (by decide))], [' ', 'a'], rfl, rfl⟩

/-! ## Unicode escapes -/

/-- What a backslash and the letter of a Unicode escape come to behind these items of a string. -/
structure ReadsUnicode (s : Scanner) (front : List Char) (items : List StringItem)
    (cs : List Char) : Prop where
  /-- Exactly the text of an escape is decoded and taken, to the character that the escape names. -/
  decodes : ∀ c rest, readEscape ('u' :: cs) = .ok (c, rest) ↔
    ∃ e : UnicodeEscape, '\\' :: 'u' :: cs = e.text ++ rest ∧ c.toNat = e.codePoint
  /-- Exactly the spellings of a character are decoded to it. -/
  spells : ∀ c rest, readEscape ('u' :: cs) = .ok (c, rest) ↔
    ∃ text, EscapeSpelling c text ∧ '\\' :: 'u' :: cs = text ++ rest
  bounded : ∀ e : UnicodeEscape, e.codePoint ≤ 0x10FFFF
  /-- The string goes on behind the escape. -/
  continues : ∀ (c : Char) (more : List StringItem) (rest : List Char),
    readEscape ('u' :: cs) = .ok (c, more.flatMap StringItem.text ++ '"' :: rest) →
      s.scan.1 = .ok ⟨some (.string (String.ofList
        (items.map StringItem.value ++ c :: more.map StringItem.value))), byteLength front,
        s.offsetOf rest⟩
  /-- What is no escape is a fault at its backslash. -/
  fails : (∀ c rest, readEscape ('u' :: cs) ≠ .ok (c, rest)) → ∃ fault,
    s.scan.1 = .error ⟨fault, byteLength (front ++ '"' :: items.flatMap StringItem.text)⟩

theorem ahead_of_readEscape_error {stuck : LexFaultAt}
    (h : readEscape ('u' :: cs) = .error stuck) : stuck.ahead = '\\' :: 'u' :: cs := by
  rw [readEscape] at h
  split at h
  · cases h
  · cases h
    rfl

/-- A string with an escape among its items is scanned like any other. -/
theorem scan_with_escape {e : UnicodeEscape} {more : List StringItem}
    (hsource : s.source.toList =
      front ++ '"' :: (items.flatMap StringItem.text ++ '\\' :: 'u' :: cs))
    (hskip : skipIgnored .blanks s.ahead =
      '"' :: (items.flatMap StringItem.text ++ '\\' :: 'u' :: cs))
    (h : '\\' :: 'u' :: cs = e.text ++ (more.flatMap StringItem.text ++ '"' :: rest)) :
    s.scan.1 = .ok ⟨some (.string (String.ofList
      (items.map StringItem.value ++ e.char :: more.map StringItem.value))), byteLength front,
      s.offsetOf rest⟩ := by
  have hliteral : '"' :: (items.flatMap StringItem.text ++ '\\' :: 'u' :: cs) =
      stringLiteral (items ++ .unicode e :: more) ++ rest := by
    rw [h]
    simp [stringLiteral, StringItem.text]
  rw [hliteral] at hsource hskip
  rw [scan_literal hsource hskip (by simp)]
  rw [← List.append_assoc] at hsource
  rw [offsetOf_eq hsource]
  simp [StringItem.value]

/-- A fault of a Unicode escape is one of the string, at the backslash. -/
theorem scan_escape_error {stuck : LexFaultAt}
    (hsource : s.source.toList =
      front ++ '"' :: (items.flatMap StringItem.text ++ '\\' :: 'u' :: cs))
    (hskip : skipIgnored .blanks s.ahead =
      '"' :: (items.flatMap StringItem.text ++ '\\' :: 'u' :: cs))
    (h : readEscape ('u' :: cs) = .error stuck) :
    s.scan.1 = .error
      ⟨stuck.fault, byteLength (front ++ '"' :: items.flatMap StringItem.text)⟩ := by
  have hblock : ¬ ['"', '"'] <+: items.flatMap StringItem.text ++ '\\' :: 'u' :: cs :=
    StringItem.not_isPrefix fun _ => by simp
  have hstring : readString (items.flatMap StringItem.text ++ '\\' :: 'u' :: cs) =
      .error stuck := by
    rw [readString_items, readString_escape_error h]
    rfl
  rw [scan_string_error hskip hblock hstring, ahead_of_readEscape_error h]
  rw [List.append_cons, ← List.append_assoc] at hsource
  rw [offsetOf_eq hsource]
  simp

/-- **The spellings of a Unicode escape agree, and nothing else is one**, wherever it stands in a
string. -/
theorem readsUnicode
    (hsource : s.source.toList =
      front ++ '"' :: (items.flatMap StringItem.text ++ '\\' :: 'u' :: cs))
    (hskip : skipIgnored .blanks s.ahead =
      '"' :: (items.flatMap StringItem.text ++ '\\' :: 'u' :: cs)) :
    s.ReadsUnicode front items cs := by
  have hread : ∀ {c rest}, readEscape ('u' :: cs) = .ok (c, rest) ↔
      ∃ e : UnicodeEscape, '\\' :: 'u' :: cs = e.text ++ rest ∧ e.char = c :=
    readEscape_unicode_eq_ok_iff
  exact {
    decodes := by
      intro c rest
      simp only [hread, ← UnicodeEscape.toNat_char, Char.toNat_inj, eq_comm]
    spells := by
      intro c rest
      simp only [hread, escapeSpelling_iff]
      constructor
      · rintro ⟨e, heq, hchar⟩
        exact ⟨e.text, ⟨e, rfl, hchar⟩, heq⟩
      · rintro ⟨_, ⟨e, rfl, hchar⟩, heq⟩
        exact ⟨e, heq, hchar⟩
    bounded := by
      intro e
      have hvalid := e.isValidChar_codePoint
      simp only [Nat.isValidChar] at hvalid
      omega
    continues := by
      intro c more rest h
      obtain ⟨e, heq, rfl⟩ := hread.mp h
      exact scan_with_escape hsource hskip heq
    fails := by
      intro hnone
      cases h : readEscape ('u' :: cs) with
      | ok result => exact absurd h (hnone _ _)
      | error stuck => exact ⟨stuck.fault, scan_escape_error hsource hskip h⟩ }

/-- A surrogate pair behind a plain character. -/
theorem readsUnicode_of_pair :
    readEscape "uD83D\\uDE00\"".toList = .ok ('😀', ['"']) ∧
      (ofSource "\"a\\uD83D\\uDE00\"").scan.1 = .ok ⟨some (.string "a😀"), 0, 15⟩ := by
  have hreads : (ofSource "\"a\\uD83D\\uDE00\"").ReadsUnicode [] [.plain 'a' (by decide)]
      "D83D\\uDE00\"".toList := readsUnicode rfl rfl
  have hhigh : SpellsHex "D83D".toList 0xD83D := ⟨0, by decide⟩
  have hlow : SpellsHex "DE00".toList 0xDE00 := ⟨0, by decide⟩
  have hpair := EscapeSpelling.pair (c := '😀') (by decide) hhigh hlow ⟨rfl, rfl⟩
  have hread : readEscape "uD83D\\uDE00\"".toList = .ok ('😀', ['"']) :=
    (hreads.spells '😀' ['"']).mpr ⟨_, hpair, rfl⟩
  exact ⟨hread, hreads.continues '😀' [] [] hread⟩

end Scanner

/-! ## Line ends -/

section LineEnds

variable {c : Char} {pre post : List Char}

private theorem UnicodeEscape.not_mem_text (e : UnicodeEscape) (hline : isLineEnd c = true) :
    c ∉ e.text := by
  intro h
  have hor := e.of_mem_text h
  have hc : c = '\n' ∨ c = '\r' := by simpa [isLineEnd] using hline
  rcases hc with rfl | rfl
  all_goals revert hor; decide

/-- Only a backslash and the character itself can be an item with a line end. -/
theorem StringItem.of_isLineEnd {item : StringItem} (h : item.text = pre ++ c :: post)
    (hline : isLineEnd c = true) : pre = ['\\'] ∧ post = [] := by
  have hbehind : ∀ d, ['\\', d] = pre ++ c :: post → pre = ['\\'] ∧ d = c ∧ post = [] := by
    intro d hd
    rcases pre with _ | ⟨x, _ | ⟨y, pre⟩⟩
    · obtain ⟨rfl, -⟩ := List.cons.inj hd
      cases hline
    · obtain ⟨hx, hd⟩ := List.cons.inj hd
      obtain ⟨rfl, rfl⟩ := List.cons.inj hd
      exact ⟨by rw [hx], rfl, rfl⟩
    · simp at hd
  have hmem : c ∈ item.text := by simp [h]
  -- Plain characters and the letters of escapes are no line ends, and `u` escapes have none.
  cases item with
  | plain d hd =>
    obtain rfl : c = d := List.mem_singleton.mp hmem
    simp [isLineEnd, hd] at hline
  | control letter d hletter =>
    have hall : ∀ p ∈ controlLetters, isLineEnd p.1 = false := by decide
    obtain ⟨-, rfl, -⟩ := hbehind letter h
    rw [hall _ hletter] at hline
    cases hline
  | verbatim d hd =>
    obtain ⟨hpre, -, hpost⟩ := hbehind d h
    exact ⟨hpre, hpost⟩
  | unicode e => exact absurd hmem (e.not_mem_text hline)

/-- A line end among the items of a string has a backslash in front of it. -/
theorem escaped_of_isLineEnd {items : List StringItem}
    (h : items.flatMap StringItem.text ++ ['"'] = pre ++ c :: post) (hline : isLineEnd c = true) :
    ∃ before behind : List StringItem, pre = before.flatMap StringItem.text ++ ['\\'] ∧
      post = behind.flatMap StringItem.text ++ ['"'] := by
  induction items generalizing pre with
  | nil =>
    rw [List.flatMap_nil, List.nil_append] at h
    have hmem : c ∈ ['"'] := by simp [h]
    obtain rfl := List.mem_singleton.mp hmem
    cases hline
  | cons item items ih =>
    rw [List.flatMap_cons, List.append_assoc] at h
    rcases List.append_eq_append_iff.mp h with ⟨pre', rfl, hitems⟩ | ⟨tail, hitem, htail⟩
    · obtain ⟨before, behind, rfl, rfl⟩ := ih hitems
      exact ⟨item :: before, behind, by simp, rfl⟩
    · cases tail with
      | nil =>
        have hrest : items.flatMap StringItem.text ++ ['"'] = [] ++ c :: post := htail.symm
        obtain ⟨before, -, hpre, -⟩ := ih hrest
        simp at hpre
      | cons d tail =>
        obtain ⟨rfl, rfl⟩ := List.cons.inj htail
        obtain ⟨rfl, rfl⟩ := StringItem.of_isLineEnd hitem hline
        exact ⟨[], items, rfl, rfl⟩

end LineEnds

/-- No other lexeme than one that begins with a quote is a string. -/
theorem eq_quote_of_lexeme {c : Char} {cs : List Char} {value : String}
    (h : (lexeme c cs).outcome = .ok (.string value)) : c = '"' := by
  unfold lexeme at h
  split at h
  · cases h
  · split at h
    · unfold Lexeme.spread at h
      split at h <;> cases h
    · split at h
      · cases h
      · split at h
        · unfold Lexeme.number at h
          split at h
          · cases h
          · split at h
            · next literal _ k hkind =>
              cases h
              unfold NumberLiteral.kind? at hkind
              split at hkind
              · obtain ⟨_, -, hvalue⟩ := Option.map_eq_some_iff.mp hkind
                cases hvalue
              · cases hkind
            · cases h
        · split at h
          · next hquote => exact hquote
          · cases h

/-- A block string takes its opening quotes. -/
theorem Lexeme.exists_text_of_block {cs : List Char} {k : TokenKind} (hblock : ['"', '"'] <+: cs)
    (h : (string cs).outcome = .ok k) : ∃ text, cs = '"' :: '"' :: (text ++ (string cs).rest) := by
  obtain ⟨body, rfl⟩ := hblock
  cases hread : readBlockString body with
  | error stuck => simp [string, hread, Except.map, ofReading] at h
  | ok result =>
    obtain ⟨text, htext⟩ := readBlockString_suffix hread
    exact ⟨text, by simp [string, hread, Except.map, ofReading, htext]⟩

/-- Each line end in the text of a string stands behind the backslash of an escape. -/
def LineEndsEscaped (text : List Char) : Prop :=
  ∀ pre c post, text = pre ++ c :: post → c = '\n' ∨ c = '\r' →
    ∃ before behind : List StringItem, pre = '"' :: (before.flatMap StringItem.text ++ ['\\']) ∧
      post = behind.flatMap StringItem.text ++ ['"']

theorem lineEndsEscaped_literal (items : List StringItem) :
    LineEndsEscaped (stringLiteral items) := by
  intro pre c post htext hc
  have hline : isLineEnd c = true := by simpa [isLineEnd] using hc
  cases pre with
  | nil =>
    obtain ⟨rfl, -⟩ := List.cons.inj htext
    cases hline
  | cons d pre =>
    obtain ⟨rfl, hitems⟩ := List.cons.inj htext
    obtain ⟨before, behind, rfl, rfl⟩ := escaped_of_isLineEnd hitems hline
    exact ⟨before, behind, rfl, rfl⟩

namespace Scanner

theorem Valid.exists_lineEndsEscaped {s : Scanner} (h : s.Valid) {token : Token} {value : String}
    (hscan : s.scan.1 = .ok token) (hkind : token.kind = some (.string value)) :
    ∃ word : Stretch s.source, word.start = token.start ∧ word.stop = token.stop ∧
      (¬ ['"', '"', '"'] <+: word.text → LineEndsEscaped word.text) := by
  rcases scan_eq_ok (Prod.ext hscan rfl : s.scan = (.ok token, s.scan.2)) with
    rfl | ⟨c, body, k, hskip, hlexeme, rfl, -⟩
  · cases hkind
  obtain rfl := Option.some.inj hkind
  obtain rfl := eq_quote_of_lexeme hlexeme
  obtain ⟨front, hsource⟩ : '"' :: body <:+ s.source.toList :=
    (hskip ▸ skipIgnored_suffix .blanks s.ahead : '"' :: body <:+ s.ahead).trans h
  -- A block string may have line ends as they are, so nothing is to be shown of it.
  by_cases hblock : ['"', '"'] <+: body
  · obtain ⟨text, htext⟩ := Lexeme.exists_text_of_block hblock hlexeme
    have hword : s.source.toList =
        front ++ '"' :: '"' :: '"' :: text ++ (lexeme '"' body).rest := by
      rw [← hsource, List.append_assoc]
      exact congrArg (fun cs => front ++ '"' :: cs) htext
    exact ⟨⟨front, '"' :: '"' :: '"' :: text, _, hword⟩, (offsetOf_eq hsource.symm).symm,
      (offsetOf_eq hword).symm, fun hno => absurd ⟨text, rfl⟩ hno⟩
  · obtain ⟨items, rest, hbody⟩ := exists_literal_of_scan hskip hblock hscan
    rw [scan_of_eq_literal hsource.symm hskip hblock hbody] at hscan
    have htoken := Except.ok.inj hscan
    exact ⟨⟨front, stringLiteral items, rest, by rw [← hsource, hbody, List.append_assoc]⟩,
      congrArg Token.start htoken, congrArg Token.stop htoken,
      fun _ => lineEndsEscaped_literal items⟩

/-- **Line ends in strings are escaped.** Whatever a scanner was asked for, a string that it gives
is the text of its token, and unless that is a block string each line end in it stands behind the
backslash of an escape. -/
theorem lineEndsEscaped_of_scan {source : String} {calls : List Call} {token : Token}
    {value : String} (hscan : ((ofSource source).after calls).scan.1 = .ok token)
    (hkind : token.kind = some (.string value)) :
    ∃ word : Stretch source, word.start = token.start ∧ word.stop = token.stop ∧
      (¬ ['"', '"', '"'] <+: word.text → LineEndsEscaped word.text) := by
  obtain ⟨hsource, hvalid⟩ := valid_after source calls
  have hword := hvalid.exists_lineEndsEscaped hscan hkind
  rwa [hsource] at hword

private theorem scan_escaped_newline :
    (ofSource "\"a\\\nb\"").scan.1 = .ok ⟨some (.string "a\nb"), 0, 6⟩ := by
  have hsource : "\"a\\\nb\"".toList = stringLiteral [.plain 'a' (by decide),
      .verbatim '\n' (by simp [controlLetters]), .plain 'b' (by decide)] ++ [] := rfl
  rw [scan_ofSource_literal hsource (by simp)]
  rfl

theorem lineEndsEscaped_of_newline :
    ∃ word : Stretch "\"a\\\nb\"", word.start = 0 ∧ word.stop = 6 ∧
      (¬ ['"', '"', '"'] <+: word.text → LineEndsEscaped word.text) := by
  have hscan : ((ofSource "\"a\\\nb\"").after []).scan.1 = .ok ⟨some (.string "a\nb"), 0, 6⟩ :=
    scan_escaped_newline
  exact lineEndsEscaped_of_scan hscan rfl

/-- Behind a backslash a string goes over the end of a line. -/
theorem newline_in_string :
    (ofSource "\"a\\\nb\"").scan.1 = .ok ⟨some (.string "a\nb"), 0, 6⟩ ∧
      ∃ word : Stretch "\"a\\\nb\"", word.start = 0 ∧ word.stop = 6 ∧
        ¬ ['"', '"', '"'] <+: word.text ∧ '\n' ∈ word.text :=
  ⟨scan_escaped_newline, ⟨[], "\"a\\\nb\"".toList, [], rfl⟩, rfl, rfl, by decide, by decide⟩

end Scanner

end GraphQLSyntax
