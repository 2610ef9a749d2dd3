import GraphQLSyntax.Proofs.Token.Local
import GraphQLSyntax.Proofs.Token.OneByOne

/-!
# Tokens tile the source

The tokens of a source stand in it one behind the other, and between them is nothing but what is
skipped: blanks, and comments up to the ends of their lines. The text of a token alone is scanned as
the token again.

* `exists_skipped`: what is skipped in front of a lexeme is ignored text.
* `skipIgnored_append_of_ignored`: all ignored text is skipped.
* `lex_of_lexeme`: the text of a lexeme alone.
* `Scanner.Valid.tiles`: a run that comes to the end tiles what is ahead of the scanner.
* `tiled_of_lex`: so the tokens of a source tile the source.
-/

namespace GraphQLSyntax

/-! ## Stretches of a source -/

/-- A stretch of a source, from one place between characters to another. -/
structure Stretch (source : String) where
  front : List Char
  text : List Char
  back : List Char
  eq : source.toList = front ++ text ++ back

namespace Stretch

variable {source : String}

/-- The byte at which the stretch starts. -/
def start (p : Stretch source) : Nat :=
  byteLength p.front

/-- The byte up to which it goes. -/
def stop (p : Stretch source) : Nat :=
  byteLength (p.front ++ p.text)

theorem stop_eq (p : Stretch source) : p.stop = p.start + byteLength p.text :=
  byteLength_append _ _

end Stretch

/-! ## What is skipped -/

/-- Text that means nothing in front of `back`: blanks, and comments. A comment goes up to a line
end or the end of the source. -/
inductive Ignored (back : List Char) : List Char → Prop
  | nil : Ignored back []
  | blank {c cs} (hblank : isBlank c = true) (others : Ignored back cs) : Ignored back (c :: cs)
  | comment {body cs} (hbody : ∀ c ∈ body, isLineEnd c = false)
      (hend : ∀ c, (cs ++ back).head? = some c → isLineEnd c = true) (others : Ignored back cs) :
      Ignored back ('#' :: (body ++ cs))

private theorem isBlank_of_isLineEnd {c : Char} (h : isLineEnd c = true) : isBlank c = true := by
  rcases Bool.or_eq_true_iff.mp h with h | h <;> simp [isBlank, h]

/-- What is skipped in front of `back`: ignored text, behind the rest of a comment if it begins in
one. -/
def Skipped (back : List Char) : Skipping → List Char → Prop
  | .blanks, gap => Ignored back gap
  | .comment, gap => ∃ body cs, gap = body ++ cs ∧ (∀ c ∈ body, isLineEnd c = false) ∧
      (∀ c, (cs ++ back).head? = some c → isLineEnd c = true) ∧ Ignored back cs

theorem exists_skipped (skipping : Skipping) (cs : List Char) :
    ∃ gap, cs = gap ++ skipIgnored skipping cs ∧
      Skipped (skipIgnored skipping cs) skipping gap := by
  fun_induction skipIgnored skipping cs with
  | case1 skipping =>
    refine ⟨[], rfl, ?_⟩
    cases skipping with
    | blanks => exact .nil
    | comment => exact ⟨[], [], rfl, by simp, by simp, .nil⟩
  | case2 c cs ih =>
    cases hline : isLineEnd c with
    | true =>
      rw [hline] at ih
      obtain ⟨gap, hcs, hgap⟩ := ih
      refine ⟨c :: gap, congrArg (c :: ·) hcs, [], c :: gap, rfl, by simp, ?_, ?_⟩
      · rintro _ ⟨⟩
        exact hline
      · exact .blank (isBlank_of_isLineEnd hline) hgap
    | false =>
      rw [hline] at ih
      obtain ⟨gap, hcs, body, cs', rfl, hbody, hend, hothers⟩ := ih
      refine ⟨c :: (body ++ cs'), congrArg (c :: ·) hcs, c :: body, cs', rfl, ?_, hend, hothers⟩
      exact List.forall_mem_cons.mpr ⟨hline, hbody⟩
  | case3 cs ih =>
    obtain ⟨gap, hcs, body, cs', rfl, hbody, hend, hothers⟩ := ih
    exact ⟨'#' :: (body ++ cs'), congrArg ('#' :: ·) hcs, .comment hbody hend hothers⟩
  | case4 c cs _ hblank ih =>
    obtain ⟨gap, hcs, hgap⟩ := ih
    exact ⟨c :: gap, congrArg (c :: ·) hcs, .blank hblank hgap⟩
  | case5 c cs => exact ⟨[], rfl, .nil⟩

private theorem skipIgnored_comment_append {body cs : List Char}
    (hbody : ∀ c ∈ body, isLineEnd c = false)
    (hend : ∀ c, cs.head? = some c → isLineEnd c = true) :
    skipIgnored .comment (body ++ cs) = skipIgnored .blanks cs := by
  induction body with
  | nil =>
    cases cs with
    | nil => rfl
    | cons c cs =>
      -- A line end is a blank too, so it makes no difference which of the two skips it.
      have hline := hend c rfl
      have hblank := isBlank_of_isLineEnd hline
      have hcomment : c ≠ '#' := by
        rintro rfl
        cases hblank
      simp [skipIgnored, hline, hblank, hcomment]
  | cons c body ih =>
    obtain ⟨hc, hbody⟩ := List.forall_mem_cons.mp hbody
    simp [skipIgnored, hc, ih hbody]

/-- What is ignored is skipped. -/
theorem skipIgnored_append_of_ignored {back gap : List Char} (h : Ignored back gap) :
    skipIgnored .blanks (gap ++ back) = skipIgnored .blanks back := by
  induction h with
  | nil => rfl
  | @blank c cs hblank others ih =>
    have hcomment : c ≠ '#' := by
      rintro rfl
      cases hblank
    simpa [skipIgnored, hcomment, hblank] using ih
  | @comment body cs hbody hend others ih =>
    rw [List.cons_append, List.append_assoc, skipIgnored, if_pos rfl,
      skipIgnored_comment_append hbody hend, ih]

/-- All of a text is skipped exactly if it is ignored up to the end of the source. -/
theorem skipIgnored_eq_nil_iff {cs : List Char} :
    skipIgnored .blanks cs = [] ↔ Ignored [] cs := by
  constructor
  · intro h
    obtain ⟨gap, hcs, hgap⟩ := exists_skipped .blanks cs
    rw [h, List.append_nil] at hcs
    rw [h] at hgap
    exact hcs ▸ hgap
  · intro h
    simpa [skipIgnored] using skipIgnored_append_of_ignored h

/-- A lexeme begins with nothing that is skipped. -/
theorem of_skipIgnored_eq_cons {skipping : Skipping} {cs tail : List Char} {c : Char}
    (h : skipIgnored skipping cs = c :: tail) : c ≠ '#' ∧ isBlank c = false := by
  fun_induction skipIgnored skipping cs with
  | case1 => cases h
  | case2 d cs ih | case3 cs ih | case4 d cs _ _ ih => exact ih h
  | case5 d cs hcomment hblank =>
    cases h
    exact ⟨hcomment, by simpa using hblank⟩

/-! ## The text of a token alone -/

/-- A lexeme that takes all of a text is all that the text is scanned as. -/
theorem lex_of_lexeme {c : Char} {cs : List Char} {k : TokenKind} (hcomment : c ≠ '#')
    (hblank : isBlank c = false) (h : lexeme c cs = ⟨.ok k, []⟩) :
    lex (String.ofList (c :: cs)) = .ok [⟨some k, 0, byteLength (c :: cs)⟩,
      ⟨none, byteLength (c :: cs), byteLength (c :: cs)⟩] := by
  have hsize : (String.ofList (c :: cs)).utf8ByteSize = byteLength (c :: cs) := by
    rw [← byteLength_toList, String.toList_ofList]
  have hskip : skipIgnored .blanks (c :: cs) = c :: cs := by
    simp [skipIgnored, hcomment, hblank]
  have hfirst : (Scanner.ofSource (String.ofList (c :: cs))).scan =
      (.ok ⟨some k, 0, byteLength (c :: cs)⟩, ⟨String.ofList (c :: cs), []⟩) := by
    simp only [Scanner.scan, Scanner.ofSource, String.toList_ofList, hskip, h, Scanner.offsetOf,
      hsize, Nat.sub_self, byteLength_nil, Nat.sub_zero]
  have hsecond : (Scanner.mk (String.ofList (c :: cs)) []).scan =
      (.ok ⟨none, byteLength (c :: cs), byteLength (c :: cs)⟩, ⟨String.ofList (c :: cs), []⟩) := by
    simp only [Scanner.scan, skipIgnored, Scanner.endToken, hsize]
  have hrun : Scanner.runOf (String.ofList (c :: cs)) = ⟨[⟨some k, 0, byteLength (c :: cs)⟩],
      .ok ⟨none, byteLength (c :: cs), byteLength (c :: cs)⟩⟩ := by
    rw [Scanner.runOf, Scanner.run_of_token hfirst rfl, Scanner.run_of_end hsecond rfl]
  exact Scanner.lex_eq_ok.mpr ⟨⟨none, _, _⟩, by rw [hrun], by rw [hrun]; rfl⟩

/-! ## Tilings -/

/-- The tokens from a byte of a source on: each behind ignored text, and the end behind all. -/
inductive Tiles (source : String) : Nat → List Token → Prop
  | last (gap : Stretch source) (hback : gap.back = []) (hgap : Ignored [] gap.text) :
      Tiles source gap.start [⟨none, gap.stop, gap.stop⟩]
  | token {kind tokens} (gap word : Stretch source) (hgap : Ignored gap.back gap.text)
      (hword : word.start = gap.stop) (hne : word.text ≠ [])
      (hlex : lex (String.ofList word.text) = .ok [⟨some kind, 0, byteLength word.text⟩,
        ⟨none, byteLength word.text, byteLength word.text⟩])
      (others : Tiles source word.stop tokens) :
      Tiles source gap.start (⟨some kind, word.start, word.stop⟩ :: tokens)

namespace Scanner

theorem offsetOf_eq {s : Scanner} {front back : List Char} (h : s.source.toList = front ++ back) :
    s.offsetOf back = byteLength front := by
  rw [offsetOf, ← byteLength_toList, h, byteLength_append, Nat.add_sub_cancel]

variable {s s' : Scanner} {token : Token}

/-- The end tiles what is ignored in front of it. -/
theorem Valid.tiles_end (h : s.Valid) (hscan : s.scan = (.ok token, s'))
    (hend : token.isEnd = true) : Tiles s.source s.offset [token] := by
  obtain ⟨front, hfront⟩ := h
  obtain ⟨gap, hahead, hgap⟩ := exists_skipped .blanks s.ahead
  obtain ⟨rfl, -, hnil⟩ := scan_of_end hscan hend
  rw [hnil] at hahead hgap
  have hsource : s.source.toList = front ++ gap ++ [] := by
    rw [List.append_assoc, ← hahead, hfront]
  have hplace : s.offset = byteLength front := offsetOf_eq hfront.symm
  have hsize : s.source.utf8ByteSize = byteLength (front ++ gap) := by
    rw [← byteLength_toList, hsource, List.append_nil]
  rw [hplace, endToken, hsize]
  exact .last ⟨front, gap, [], hsource⟩ rfl hgap

/-- A token stands in front of a tiling of what the scanner goes on with. -/
theorem Valid.tiles_token (h : s.Valid) (hscan : s.scan = (.ok token, s'))
    (hend : token.isEnd = false) {tokens : List Token} (others : Tiles s.source s'.offset tokens) :
    Tiles s.source s.offset (token :: tokens) := by
  obtain ⟨front, hfront⟩ := h
  obtain ⟨gap, hahead, hgap⟩ := exists_skipped .blanks s.ahead
  rcases scan_eq_ok hscan with rfl | ⟨c, cs, k, hskip, hlexeme, rfl, rfl⟩
  · cases hend
  obtain ⟨hcomment, hblank⟩ := of_skipIgnored_eq_cons hskip
  obtain ⟨rest, hrest⟩ : ∃ rest, (lexeme c cs).rest = rest := ⟨_, rfl⟩
  rw [hrest] at others ⊢
  obtain ⟨word, rfl, hlocal⟩ := lexeme_local (show lexeme c cs = ⟨.ok k, rest⟩ by
    rw [← hlexeme, ← hrest])
  have halone : lexeme c word = ⟨.ok k, []⟩ := by
    simpa using hlocal [] (.inr (by rintro _ ⟨⟩))
  rw [hskip] at hahead hgap
  have hword : s.source.toList = front ++ gap ++ c :: (word ++ rest) := by
    rw [List.append_assoc, ← hahead, hfront]
  have hbehind : s.source.toList = front ++ gap ++ (c :: word) ++ rest := by
    rw [hword, List.append_assoc (front ++ gap), List.cons_append]
  have hplace : s.offset = byteLength front := offsetOf_eq hfront.symm
  have hplace' : offset { s with ahead := rest } = byteLength (front ++ gap ++ (c :: word)) :=
    offsetOf_eq hbehind
  rw [hplace'] at others
  rw [hplace, offsetOf_eq hword, offsetOf_eq hbehind]
  exact .token ⟨front, gap, c :: (word ++ rest), hword⟩ ⟨front ++ gap, c :: word, rest, hbehind⟩
    hgap rfl (by simp) (lex_of_lexeme hcomment hblank halone) others

/-- A run that comes to the end tiles what is ahead of the scanner. -/
theorem Valid.tiles (h : s.Valid) {last : Token} (hlast : s.run.1.last = .ok last) :
    Tiles s.source s.offset (s.run.1.tokens ++ [last]) := by
  induction hn : s.ahead.length using Nat.strongRecOn generalizing s with
  | ind n ih =>
    rcases hscan : s.scan with ⟨e | first, s'⟩
    · rw [run_of_error hscan] at hlast
      cases hlast
    cases hend : first.isEnd with
    | true =>
      rw [run_of_end hscan hend] at hlast ⊢
      cases hlast
      exact h.tiles_end hscan hend
    | false =>
      have hlt := length_ahead_lt hscan hend
      have hsource : s'.source = s.source := by
        rcases scan_eq_ok hscan with rfl | ⟨_, _, _, -, -, -, rfl⟩
        · cases hend
        · rfl
      rw [run_of_token hscan hend] at hlast ⊢
      have hothers := ih _ (hn ▸ hlt) (h.scan hscan hend).1 hlast rfl
      rw [hsource] at hothers
      exact h.tiles_token hscan hend hothers

end Scanner

/-! ## What a tiling says -/

/-- Where the token in front of the one with this index stops, `place` if it is the first. -/
def stopBefore (place : Nat) (tokens : List Token) (i : Nat) : Nat :=
  ((tokens.take i).getLast?.map Token.stop).getD place

theorem stopBefore_cons (place : Nat) (token : Token) (tokens : List Token) (i : Nat) :
    stopBefore place (token :: tokens) (i + 1) = stopBefore token.stop tokens i := by
  rw [stopBefore, stopBefore, List.take_succ_cons, List.getLast?_cons]
  cases (tokens.take i).getLast? <;> rfl

/-- The tokens lie in the source in order, and nothing of it is lost between them. -/
structure Tiled (source : String) (tokens : List Token) : Prop where
  /-- The last token is the end, behind all of the source, and no other is. -/
  endsLast : ∃ front, tokens = front ++ [⟨none, source.utf8ByteSize, source.utf8ByteSize⟩] ∧
    ∀ t ∈ front, t.isEnd = false
  /-- No token begins in front of where one before it stops. -/
  inOrder : tokens.Pairwise fun t u => t.stop ≤ u.start
  /-- A token stands on a stretch that is not empty, and alone it is scanned as the same token. -/
  words : ∀ t ∈ tokens, t.isEnd = false → ∃ word : Stretch source,
    word.start = t.start ∧ word.stop = t.stop ∧ t.start < t.stop ∧
      lex (String.ofList word.text) = .ok [⟨t.kind, 0, byteLength word.text⟩,
        ⟨none, byteLength word.text, byteLength word.text⟩]
  /-- In front of each token, the end among them, stands ignored text. -/
  gaps : ∀ i t, tokens[i]? = some t → ∃ gap : Stretch source,
    gap.start = stopBefore 0 tokens i ∧ gap.stop = t.start ∧ Ignored gap.back gap.text

namespace Tiles

variable {source : String} {place : Nat} {tokens : List Token}

theorem endsLast (h : Tiles source place tokens) :
    ∃ front, tokens = front ++ [⟨none, source.utf8ByteSize, source.utf8ByteSize⟩] ∧
      ∀ t ∈ front, t.isEnd = false := by
  induction h with
  | last gap hback =>
    have hstop : gap.stop = source.utf8ByteSize := by
      rw [← byteLength_toList, gap.eq, hback, List.append_nil]
      rfl
    exact ⟨[], by rw [hstop]; rfl, by simp⟩
  | token gap word _ _ _ _ _ ih =>
    obtain ⟨front, rfl, hfront⟩ := ih
    exact ⟨_ :: front, rfl, List.forall_mem_cons.mpr ⟨rfl, hfront⟩⟩

theorem le_start (h : Tiles source place tokens) : ∀ t ∈ tokens, place ≤ t.start := by
  induction h with
  | last gap => exact List.forall_mem_singleton.mpr (gap.stop_eq ▸ Nat.le_add_right _ _)
  | token gap word _ hword _ _ _ ih =>
    have hgap : gap.start ≤ word.start := hword ▸ gap.stop_eq ▸ Nat.le_add_right _ _
    have hstop : word.start ≤ word.stop := word.stop_eq ▸ Nat.le_add_right _ _
    refine List.forall_mem_cons.mpr ⟨hgap, fun t ht => ?_⟩
    exact Nat.le_trans (Nat.le_trans hgap hstop) (ih t ht)

theorem inOrder (h : Tiles source place tokens) :
    tokens.Pairwise fun t u => t.stop ≤ u.start := by
  induction h with
  | last => simp
  | token _ _ _ _ _ _ others ih => exact List.pairwise_cons.mpr ⟨others.le_start, ih⟩

theorem words (h : Tiles source place tokens) :
    ∀ t ∈ tokens, t.isEnd = false → ∃ word : Stretch source,
      word.start = t.start ∧ word.stop = t.stop ∧ t.start < t.stop ∧
        lex (String.ofList word.text) = .ok [⟨t.kind, 0, byteLength word.text⟩,
          ⟨none, byteLength word.text, byteLength word.text⟩] := by
  induction h with
  | last => exact List.forall_mem_singleton.mpr (by rintro ⟨⟩)
  | token gap word _ _ hne hlex _ ih =>
    refine List.forall_mem_cons.mpr ⟨fun _ => ⟨word, rfl, rfl, ?_, hlex⟩, ih⟩
    obtain ⟨c, cs, hcs⟩ := List.exists_cons_of_ne_nil hne
    have hpos := c.utf8Size_pos
    show word.start < word.stop
    rw [word.stop_eq, hcs, byteLength_cons]
    omega

theorem gaps (h : Tiles source place tokens) :
    ∀ i t, tokens[i]? = some t → ∃ gap : Stretch source,
      gap.start = stopBefore place tokens i ∧ gap.stop = t.start ∧
        Ignored gap.back gap.text := by
  induction h with
  | last gap hback hgap =>
    intro i t ht
    obtain ⟨rfl, rfl⟩ : i = 0 ∧ _ = t := by simpa [List.getElem?_singleton] using ht
    exact ⟨gap, rfl, rfl, hback ▸ hgap⟩
  | token gap word hgap hword _ _ _ ih =>
    rintro (_ | i) t ht
    · obtain rfl := Option.some.inj ht
      exact ⟨gap, rfl, hword.symm, hgap⟩
    · rw [stopBefore_cons]
      exact ih i t ht

end Tiles

/-- **The tokens of a source tile it.** They stand in it in order and end in the end of the source,
only ignored text stands between them, and the text of each is scanned as the token. -/
theorem tiled_of_lex {source : String} {tokens : List Token} (h : lex source = .ok tokens) :
    Tiled source tokens := by
  obtain ⟨last, hlast, rfl⟩ := Scanner.lex_eq_ok.mp h
  have htiles := (Scanner.valid_ofSource source).tiles hlast
  have hplace : (Scanner.ofSource source).offset = byteLength [] := Scanner.offsetOf_eq rfl
  rw [hplace, byteLength_nil] at htiles
  exact ⟨htiles.endsLast, htiles.inOrder, htiles.words, htiles.gaps⟩

/-- A byte order mark, a comma and two comments are skipped, and a block string needs no blank. -/
theorem tiled_around_comment :
    lex "\ufeffa,#é\n-1\"\"\"é\"\"\"...#" = .ok [⟨some (.name "a"), 3, 4⟩,
        ⟨some (.int (-1)), 9, 11⟩, ⟨some (.string "é"), 11, 19⟩, ⟨some (punct .spread), 19, 22⟩,
        ⟨none, 23, 23⟩] ∧
      Tiled "\ufeffa,#é\n-1\"\"\"é\"\"\"...#" [⟨some (.name "a"), 3, 4⟩, ⟨some (.int (-1)), 9, 11⟩,
        ⟨some (.string "é"), 11, 19⟩, ⟨some (punct .spread), 19, 22⟩, ⟨none, 23, 23⟩] := by
  have h : lex "\ufeffa,#é\n-1\"\"\"é\"\"\"...#" = .ok [⟨some (.name "a"), 3, 4⟩,
      ⟨some (.int (-1)), 9, 11⟩, ⟨some (.string "é"), 11, 19⟩, ⟨some (punct .spread), 19, 22⟩,
      ⟨none, 23, 23⟩] := rfl
  exact ⟨h, tiled_of_lex h⟩

end GraphQLSyntax
