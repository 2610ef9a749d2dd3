import GraphQLSyntax.Proofs.Token.Tiling

/-!
# Layouts of tokens

A text that can be scanned is the texts of its tokens with ignored text in front of, between and
behind them. The ignored text can be replaced by any other, as long as tokens that were apart stay
so: the tokens are the same, each on its own text.

* `Layout.Scanned.relaid`: a layout with other ignored text is scanned if the first is.
* `Layout.Scanned.remaining`, `Layout.scanned_of_remaining`: a layout is scanned exactly if its
  tokens are those of its text.
* `Layout.exists_of_tiles`: every source that can be scanned has a layout.
* `lex_relaid`: so layout does not matter.
* `Layout.scanned_spelled`: the spellings of tokens with the spaces they need are a layout.
-/

namespace GraphQLSyntax

/-! ## Layouts -/

/-- A text as the texts of its tokens with what stands in front of each, and behind the last. -/
inductive Layout
  | last (gap : List Char)
  | token (gap : List Char) (kind : TokenKind) (word : List Char) (others : Layout)

namespace Layout

def text : Layout → List Char
  | last gap => gap
  | token gap _ word others => gap ++ (word ++ others.text)

/-- The tokens of a layout that begins at a byte. -/
def tokensFrom (place : Nat) : Layout → List Token
  | last gap => [⟨none, place + byteLength gap, place + byteLength gap⟩]
  | token gap kind word others =>
    ⟨some kind, place + byteLength gap, place + byteLength (gap ++ word)⟩ ::
      others.tokensFrom (place + byteLength (gap ++ word))

/-- The tokens of a layout, each on its own text. -/
def tokens (l : Layout) : List Token :=
  l.tokensFrom 0

/-- The layout begins with the text of a token. -/
def Joins : Layout → Prop
  | last _ => False
  | token gap _ _ _ => gap = []

/-- The second layout has the token texts of the first. What is in front of, between and behind
them is ignored, and two of them stand next to each other only if they did. -/
inductive Relaid : Layout → Layout → Prop
  | last {gap gap'} (hgap : Ignored [] gap') : Relaid (last gap) (last gap')
  | token {gap gap' kind word others others'} (hgap : Ignored word gap')
      (hjoins : others'.Joins → others.Joins) (hothers : Relaid others others') :
      Relaid (token gap kind word others) (token gap' kind word others')

/-- The text of a layout is scanned as its tokens. -/
inductive Scanned : Layout → Prop
  | last {gap} (hgap : Ignored [] gap) : Scanned (last gap)
  | token {gap kind c cs others} (hgap : Ignored (c :: (cs ++ others.text)) gap)
      (hcomment : c ≠ '#') (hblank : isBlank c = false)
      (hlexeme : lexeme c (cs ++ others.text) = ⟨.ok kind, others.text⟩)
      (hothers : Scanned others) : Scanned (token gap kind (c :: cs) others)

end Layout

/-! ## Other ignored text -/

namespace TokenKind

/-- Ignored text ends every token. -/
theorem endsBefore_ignored (k : TokenKind) {back gap : List Char} (h : Ignored back gap)
    (hne : gap ≠ []) (rest : List Char) : k.EndsBefore (gap ++ rest) := by
  cases h with
  | nil => exact absurd rfl hne
  | @blank c _ hblank _ =>
    rintro _ ⟨⟩
    have hc : c = ' ' ∨ c = '\t' ∨ c = '\r' ∨ c = '\n' ∨ c = ',' ∨ c = '\ufeff' := by
      simpa [isBlank, or_assoc] using hblank
    rcases hc with rfl | rfl | rfl | rfl | rfl | rfl <;> cases k <;> rfl
  | comment _ _ _ =>
    rintro _ ⟨⟩
    cases k <;> rfl

end TokenKind

/-- What is ignored depends on the next character alone. -/
theorem Ignored.of_head {back back' gap : List Char} (h : Ignored back gap)
    (hhead : back'.head? = back.head?) : Ignored back' gap := by
  induction h with
  | nil => exact .nil
  | blank hblank _ ih => exact .blank hblank ih
  | comment hbody hend _ ih =>
    refine .comment hbody (fun c hc => hend c ?_) ih
    rwa [List.head?_append, ← hhead, ← List.head?_append]

namespace Layout

/-- A token ends in front of the tokens behind it, also in another layout of these. -/
private theorem ends_before {k : TokenKind} {others others' : Layout} (hothers : others.Scanned)
    (h : others.Relaid others') (hjoins : others'.Joins → others.Joins) :
    others'.text.head? = others.text.head? ∨ k.EndsBefore others'.text := by
  cases h with
  | @last gap gap' hgap =>
    by_cases hne : gap' = []
    · exact .inr (by simp [text, hne, TokenKind.EndsBefore])
    · exact .inr (by simpa [text] using k.endsBefore_ignored hgap hne [])
  | @token gap gap' kind word others others' hgap _ _ =>
    by_cases hne : gap' = []
    · obtain rfl : gap = [] := hjoins hne
      cases hothers
      exact .inl (by simp [text, hne])
    · exact .inr (k.endsBefore_ignored hgap hne _)

/-- Other ignored text changes nothing. -/
theorem Scanned.relaid {l l' : Layout} (h : l.Scanned) (hl : l.Relaid l') : l'.Scanned := by
  induction hl with
  | last hgap => exact .last hgap
  | @token gap gap' kind word others others' hgap hjoins hrelaid ih =>
    cases h with
    | @token _ _ c cs _ _ hcomment hblank hlexeme hothers =>
      obtain ⟨pre, hpre, hlocal⟩ := lexeme_local hlexeme
      obtain rfl := List.append_cancel_right hpre
      exact .token (hgap.of_head rfl) hcomment hblank
        (hlocal _ (ends_before hothers hrelaid hjoins)) (ih hothers)

theorem Relaid.kinds {l l' : Layout} (h : l.Relaid l') (place place' : Nat) :
    (l'.tokensFrom place').map Token.kind = (l.tokensFrom place).map Token.kind := by
  induction h generalizing place place' with
  | last => rfl
  | token _ _ _ ih => exact congrArg (_ :: ·) (ih _ _)

end Layout

/-! ## What is scanned -/

namespace Scanner

variable {s s' : Scanner} {token : Token}

theorem remaining_fst (s : Scanner) :
    s.remaining.1 = s.run.1.last.map fun token => s.run.1.tokens ++ [token] := rfl

theorem remaining_of_token (h : s.scan = (.ok token, s')) (hend : token.isEnd = false) :
    s.remaining.1 = s'.remaining.1.map (token :: ·) := by
  rw [remaining_fst, remaining_fst, run_of_token h hend]
  cases s'.run.1.last <;> rfl

theorem remaining_of_end (h : s.scan = (.ok token, s')) (hend : token.isEnd = true) :
    s.remaining.1 = .ok [token] := by
  rw [remaining_fst, run_of_end h hend]
  rfl

theorem remaining_of_error {e : LexError} (h : s.scan = (.error e, s')) :
    s.remaining.1 = .error e := by
  rw [remaining_fst, run_of_error h]
  rfl

/-- The first of the tokens is scanned first, and the others behind it. -/
theorem scan_of_remaining {tokens : List Token} (h : s.remaining.1 = .ok (token :: tokens)) :
    ∃ s', s.scan = (.ok token, s') ∧ (token.isEnd = false → s'.remaining.1 = .ok tokens) := by
  rcases hscan : s.scan with ⟨e | first, s'⟩
  · rw [remaining_of_error hscan] at h
    cases h
  cases hend : first.isEnd with
  | true =>
    rw [remaining_of_end hscan hend] at h
    cases h
    exact ⟨s', rfl, fun hfalse => by cases hend.symm.trans hfalse⟩
  | false =>
    rw [remaining_of_token hscan hend] at h
    cases hothers : s'.remaining.1 with
    | error e => simp [hothers, Except.map] at h
    | ok others =>
      simp only [hothers, Except.map, Except.ok.injEq, List.cons.injEq] at h
      obtain ⟨rfl, rfl⟩ := h
      exact ⟨s', rfl, fun _ => hothers⟩

theorem offset_ofSource (source : String) : (ofSource source).offset = 0 :=
  offsetOf_eq (s := ofSource source) (List.nil_append source.toList).symm

theorem Valid.offsetOf_append (h : s.Valid) {passed ahead : List Char}
    (hahead : s.ahead = passed ++ ahead) : s.offsetOf ahead = s.offset + byteLength passed := by
  obtain ⟨front, hfront⟩ := h
  have hsource : s.source.toList = (front ++ passed) ++ ahead := by
    rw [List.append_assoc, ← hahead, hfront]
  have hplace : s.offset = byteLength front := offsetOf_eq hfront.symm
  rw [offsetOf_eq hsource, hplace, byteLength_append]

end Scanner

namespace Layout

open Scanner

/-- A layout that is scanned gives its tokens. -/
theorem Scanned.remaining {l : Layout} (h : l.Scanned) {s : Scanner} (hs : s.Valid)
    (hahead : s.ahead = l.text) : s.remaining.1 = .ok (l.tokensFrom s.offset) := by
  induction h generalizing s with
  | @last gap hgap =>
    have hskip : skipIgnored .blanks s.ahead = [] := hahead ▸ skipIgnored_eq_nil_iff.mpr hgap
    have hscan : s.scan = (.ok s.endToken, { s with ahead := [] }) := by
      rw [scan, hskip]
    have hsize : s.source.utf8ByteSize = s.offset + byteLength gap := by
      rw [← hs.offsetOf_append (show s.ahead = gap ++ [] by simpa [text] using hahead)]
      rfl
    rw [remaining_of_end hscan rfl, endToken, hsize]
    rfl
  | @token gap kind c cs others hgap hcomment hblank hlexeme _ ih =>
    have hskip : skipIgnored .blanks s.ahead = c :: (cs ++ others.text) := by
      rw [hahead, text, List.cons_append, skipIgnored_append_of_ignored hgap]
      simp [skipIgnored, hcomment, hblank]
    have hbehind : s.ahead = (gap ++ (c :: cs)) ++ others.text := by
      rw [hahead, text, List.append_assoc]
    have hscan : s.scan = (.ok ⟨some kind, s.offset + byteLength gap,
        s.offset + byteLength (gap ++ (c :: cs))⟩, { s with ahead := others.text }) := by
      rw [scan, hskip]
      simp only [hlexeme]
      rw [hs.offsetOf_append hbehind,
        hs.offsetOf_append (show s.ahead = gap ++ (c :: (cs ++ others.text)) by
          rw [hahead, text, List.cons_append])]
    have hs' : (Scanner.mk s.source others.text).Valid :=
      (show others.text <:+ s.ahead from ⟨_, hbehind.symm⟩).trans hs
    have hoffset : (Scanner.mk s.source others.text).offset =
        s.offset + byteLength (gap ++ (c :: cs)) := hs.offsetOf_append hbehind
    rw [remaining_of_token hscan rfl, ih hs' rfl, hoffset]
    rfl

/-- Only a layout that is scanned gives its tokens. -/
theorem scanned_of_remaining {l : Layout} {s : Scanner} (hs : s.Valid) (hahead : s.ahead = l.text)
    (h : s.remaining.1 = .ok (l.tokensFrom s.offset)) : l.Scanned := by
  induction l generalizing s with
  | last gap =>
    obtain ⟨s', hscan, -⟩ := scan_of_remaining h
    have hskip := (scan_of_end hscan rfl).2.2
    rw [hahead] at hskip
    exact .last (skipIgnored_eq_nil_iff.mp hskip)
  | token gap kind word others ih =>
    obtain ⟨s', hscan, hothers⟩ := scan_of_remaining h
    rcases scan_eq_ok hscan with hend | ⟨c, cs, k, hskip, hlexeme, htoken, rfl⟩
    · cases congrArg Token.kind hend
    obtain ⟨skipped, hskipped, hgap⟩ := exists_skipped .blanks s.ahead
    rw [hskip] at hskipped hgap
    have hbegins : s.ahead = gap ++ (word ++ others.text) := hahead
    -- Both cut the text in front of the token, after equally many bytes.
    obtain ⟨rfl, hword⟩ := eq_of_append_of_byteLength (hskipped.symm.trans hbegins)
      (Nat.add_left_cancel ((hs.offsetOf_append hskipped).symm.trans
        (congrArg Token.start htoken).symm))
    obtain ⟨rest, hrest⟩ : ∃ rest, (lexeme c cs).rest = rest := ⟨_, rfl⟩
    rw [hrest] at hscan htoken hothers
    have hwhole : lexeme c cs = ⟨.ok k, rest⟩ := by rw [← hlexeme, ← hrest]
    obtain ⟨pre, rfl, -⟩ := lexeme_local hwhole
    -- Both cut it behind the token, too.
    have hbehind : s.ahead = (skipped ++ c :: pre) ++ rest := by
      rw [hskipped, List.append_assoc, List.cons_append]
    obtain ⟨hpre, rfl⟩ := eq_of_append_of_byteLength
      (hbehind.symm.trans (hbegins.trans (List.append_assoc skipped word others.text).symm))
      (Nat.add_left_cancel ((hs.offsetOf_append hbehind).symm.trans
        (congrArg Token.stop htoken).symm))
    obtain rfl := List.append_cancel_left hpre
    obtain rfl : kind = k := Option.some.inj (congrArg Token.kind htoken)
    obtain ⟨hcomment, hblank⟩ := of_skipIgnored_eq_cons hskip
    have hs' := hs.scan hscan rfl
    refine .token hgap hcomment hblank hwhole (ih hs'.1 rfl ?_)
    rw [hothers rfl]
    exact congrArg (fun place => Except.ok (others.tokensFrom place))
      (hs.offsetOf_append hbehind).symm

/-- The tokens of a source are those of a layout of it. -/
theorem exists_of_tiles {source : String} {place : Nat} {tokens : List Token}
    (h : Tiles source place tokens) {front back : List Char}
    (hsource : source.toList = front ++ back) (hplace : byteLength front = place) :
    ∃ l : Layout, l.text = back ∧ l.tokensFrom place = tokens := by
  induction h generalizing front back with
  | last gap hback hgap =>
    have hgapSource : source.toList = gap.front ++ gap.text := by
      rw [gap.eq, hback, List.append_nil]
    obtain ⟨-, rfl⟩ := eq_of_append_of_byteLength (hsource.symm.trans hgapSource) hplace
    exact ⟨.last gap.text, rfl, by rw [tokensFrom, ← gap.stop_eq]⟩
  | @token kind tokens gap word hgap hword hne hlex others ih =>
    obtain ⟨rfl, rfl⟩ := eq_of_append_of_byteLength
      (hsource.symm.trans (gap.eq.trans (List.append_assoc _ _ _))) hplace
    obtain ⟨hfront, hback⟩ := eq_of_append_of_byteLength
      (gap.eq.symm.trans (word.eq.trans (List.append_assoc _ _ _))) hword.symm
    obtain ⟨l, hl, htokens⟩ := ih word.eq rfl
    refine ⟨.token gap.text kind word.text l, by rw [text, hl, hback], ?_⟩
    have hstart : word.start = gap.start + byteLength gap.text := hword.trans gap.stop_eq
    have hstop : word.stop = gap.start + byteLength (gap.text ++ word.text) := by
      rw [word.stop_eq, hstart, byteLength_append, Nat.add_assoc]
    rw [tokensFrom, ← hstart, ← hstop, htokens]

/-- So a layout that is scanned is the source of its tokens. -/
theorem Scanned.lex {l : Layout} (h : l.Scanned) :
    GraphQLSyntax.lex (String.ofList l.text) = .ok l.tokens := by
  have hremaining := h.remaining (valid_ofSource (String.ofList l.text)) String.toList_ofList
  rwa [offset_ofSource] at hremaining

end Layout

/-! ## Sources -/

/-- **Layout does not matter.** The tokens of a source are those of a layout of it, and every other
layout of the same token texts is scanned as tokens of the same kinds, each on its own text. -/
theorem lex_relaid {source : String} {tokens : List Token} (h : lex source = .ok tokens) :
    (∃ l : Layout, l.text = source.toList ∧ l.tokens = tokens) ∧
      ∀ l l' : Layout, l.text = source.toList → l.tokens = tokens → l.Relaid l' →
        lex (String.ofList l'.text) = .ok l'.tokens ∧
          l'.tokens.map Token.kind = tokens.map Token.kind := by
  constructor
  · obtain ⟨last, hlast, rfl⟩ := Scanner.lex_eq_ok.mp h
    have htiles := (Scanner.valid_ofSource source).tiles hlast
    rw [Scanner.offset_ofSource] at htiles
    exact Layout.exists_of_tiles htiles (List.nil_append source.toList).symm rfl
  · rintro l l' htext rfl hrelaid
    have hscanned : l.Scanned := by
      refine Layout.scanned_of_remaining (Scanner.valid_ofSource source) htext.symm ?_
      rw [Scanner.offset_ofSource]
      exact h
    exact ⟨(hscanned.relaid hrelaid).lex, hrelaid.kinds 0 0⟩

/-- A comment goes between tokens that were apart, a comma between others, a byte order mark in
front of them, and the source ends in a comment. -/
theorem lex_relaid_with_comments :
    lex "a -1\"\"\"x\"\"\"b" = .ok [⟨some (.name "a"), 0, 1⟩, ⟨some (.int (-1)), 2, 4⟩,
        ⟨some (.string "x"), 4, 11⟩, ⟨some (.name "b"), 11, 12⟩, ⟨none, 12, 12⟩] ∧
      lex "\ufeffa#é\r -1,\"\"\"x\"\"\"b\t#" = .ok [⟨some (.name "a"), 3, 4⟩,
        ⟨some (.int (-1)), 9, 11⟩, ⟨some (.string "x"), 12, 19⟩, ⟨some (.name "b"), 19, 20⟩,
        ⟨none, 22, 22⟩] := by
  have h : lex "a -1\"\"\"x\"\"\"b" = .ok [⟨some (.name "a"), 0, 1⟩, ⟨some (.int (-1)), 2, 4⟩,
      ⟨some (.string "x"), 4, 11⟩, ⟨some (.name "b"), 11, 12⟩, ⟨none, 12, 12⟩] := rfl
  let layout (first second third last : List Char) : Layout :=
    .token first (.name "a") ['a'] (.token second (.int (-1)) ['-', '1']
      (.token third (.string "x") ['"', '"', '"', 'x', '"', '"', '"']
        (.token [] (.name "b") ['b'] (.last last))))
  have hrelaid : (layout [] [' '] [] []).Relaid
      (layout ['\ufeff'] ['#', 'é', '\r', ' '] [','] ['\t', '#']) := by
    have hfront : Ignored ['a'] ['\ufeff'] := .blank rfl .nil
    have hcomment : Ignored ['-', '1'] ['#', 'é', '\r', ' '] :=
      @Ignored.comment _ ['é'] [_, _] (List.forall_mem_singleton.mpr rfl) (by rintro _ ⟨⟩; rfl)
        (.blank rfl (.blank rfl .nil))
    have hcomma : Ignored ['"', '"', '"', 'x', '"', '"', '"'] [','] := .blank rfl .nil
    have hlast : Ignored [] ['\t', '#'] :=
      .blank rfl (@Ignored.comment _ [] [] (by simp) (by rintro _ ⟨⟩) .nil)
    refine .token hfront (fun h => ?_) (.token hcomment (fun _ => rfl)
      (.token hcomma id (.token .nil id (.last hlast))))
    cases h
  exact ⟨h, ((lex_relaid h).2 _ _ rfl rfl hrelaid).1⟩

/-! ## Spelled tokens -/

namespace Layout

/-- Tokens as they are spelled behind another one. -/
def spelledBehind (left : TokenKind) : List TokenKind → Layout
  | [] => last []
  | right :: ks =>
    token (if needsSpace left right then [' '] else []) right right.spelling
      (spelledBehind right ks)

/-- Tokens as they are spelled, with a space between two of them if it is needed. -/
def spelled : List TokenKind → Layout
  | [] => last []
  | k :: ks => token [] k k.spelling (spelledBehind k ks)

theorem text_spelledBehind (left : TokenKind) (ks : List TokenKind) :
    (spelledBehind left ks).text = spellBehind left ks := by
  induction ks generalizing left with
  | nil => rfl
  | cons right ks ih => rw [spelledBehind, text, ih, spellBehind, List.append_assoc]

theorem text_spelled (ks : List TokenKind) : (spelled ks).text = spell ks := by
  cases ks with
  | nil => rfl
  | cons k ks => rw [spelled, text, text_spelledBehind, List.nil_append, spell]

theorem kinds_spelledBehind (left : TokenKind) (ks : List TokenKind) (place : Nat) :
    ((spelledBehind left ks).tokensFrom place).map Token.kind = ks.map some ++ [none] := by
  induction ks generalizing left place with
  | nil => rfl
  | cons right ks ih => exact congrArg (some right :: ·) (ih right _)

theorem kinds_spelled (ks : List TokenKind) :
    (spelled ks).tokens.map Token.kind = ks.map some ++ [none] := by
  cases ks with
  | nil => rfl
  | cons k ks => exact congrArg (some k :: ·) (kinds_spelledBehind k ks _)

/-- A token with its spelling goes in front of a layout that does not go on with it. -/
private theorem Scanned.spelling {k : TokenKind} (hk : k.isReadable = true) {gap : List Char}
    (hgap : gap = [] ∨ gap = [' ']) {l : Layout} (h : l.Scanned) (hends : k.EndsBefore l.text) :
    (Layout.token gap k k.spelling l).Scanned := by
  obtain ⟨c, cs, hcs, hcomment, hblank, hlexeme⟩ := lexeme_spelling hk hends
  rw [hcs]
  refine .token ?_ hcomment hblank hlexeme h
  rcases hgap with rfl | rfl
  · exact .nil
  · exact .blank rfl .nil

/-- Tokens without a number in front of a spread are scanned from their spellings. -/
theorem scanned_spelled {ks : List TokenKind} (hks : Readable ks) (h : KeepsApart ks) :
    (spelled ks).Scanned := by
  have hbehind : ∀ {k ks}, Readable (k :: ks) → KeepsApart (k :: ks) →
      (spelledBehind k ks).Scanned ∧ k.EndsBefore (spelledBehind k ks).text := by
    intro k ks hks h
    induction ks generalizing k with
    | nil => exact ⟨.last .nil, by rintro c ⟨⟩⟩
    | cons r ks ih =>
      obtain ⟨hscanned, hends⟩ := ih (readable_cons.mp hks).2 h.2
      have hr : r.isReadable = true := hks r (by simp)
      rw [spelledBehind, text]
      cases hspace : needsSpace k r with
      | true => exact ⟨hscanned.spelling hr (.inr rfl) hends, k.endsBefore_space _⟩
      | false =>
        exact ⟨hscanned.spelling hr (.inl rfl) hends,
          TokenKind.endsBefore_spelling hr hspace h.1 _⟩
  cases ks with
  | nil => exact .last .nil
  | cons k ks =>
    obtain ⟨hscanned, hends⟩ := hbehind hks h
    exact hscanned.spelling (hks k (by simp)) (.inl rfl) hends

end Layout

end GraphQLSyntax
