import GraphQLSyntax.Diagnostic
import GraphQLSyntax.Proofs.Document.Lazy
import GraphQLSyntax.Proofs.Token.Calls
import GraphQLSyntax.Proofs.Token.FaultPlace

/-!
# Places of errors

An error can be shown in its source: its range lies in the source and cuts no character, and so does
the range that a report points at. That one is empty only at the end of the source.

* `Scanner.Valid.within_scan`: all that a scan gives is at such a place.
* `Span.Within.shows`: what a report points at.
* `Error.span_shows`: so it is for every source that is refused.
-/

namespace GraphQLSyntax

/-! ## Places in a source -/

/-- A place between characters has text in front of it and behind it. -/
theorem isValid_iff_exists_append {source : String} {place : Nat} :
    (String.Pos.Raw.mk place).IsValid source ↔
      ∃ front back, source.toList = front ++ back ∧ place = byteLength front := by
  rw [String.Pos.Raw.isValid_iff_exists_append]
  constructor
  · rintro ⟨front, back, rfl, hplace⟩
    refine ⟨front.toList, back.toList, String.toList_append, ?_⟩
    rw [byteLength_toList]
    exact congrArg String.Pos.Raw.byteIdx hplace
  · rintro ⟨front, back, hsource, rfl⟩
    refine ⟨String.ofList front, String.ofList back, ?_, ?_⟩
    · rw [← String.ofList_append, ← hsource, String.ofList_toList]
    · rw [← String.toList_ofList (l := front), byteLength_toList, String.ofList_toList]
      rfl

/-- The range lies in the source and cuts no character. -/
structure Span.Within (source : String) (r : Span) : Prop where
  ordered : r.start ≤ r.stop
  inside : r.stop ≤ source.utf8ByteSize
  start : (String.Pos.Raw.mk r.start).IsValid source
  stop : (String.Pos.Raw.mk r.stop).IsValid source

/-- A stretch of a source is such a range. -/
theorem Stretch.within {source : String} (p : Stretch source) :
    Span.Within source ⟨p.start, p.stop⟩ where
  ordered := p.stop_eq ▸ Nat.le_add_right _ _
  inside := by
    rw [← byteLength_toList, p.eq, byteLength_append]
    exact Nat.le_add_right _ _
  start := isValid_iff_exists_append.mpr
    ⟨p.front, p.text ++ p.back, by rw [p.eq, List.append_assoc], rfl⟩
  stop := isValid_iff_exists_append.mpr ⟨p.front ++ p.text, p.back, p.eq, rfl⟩

/-! ## What is scanned -/

namespace Scanner

variable {s : Scanner}

/-- From one end of the source to a shorter one is a range of it. -/
theorem within_of_suffix {rest ahead : List Char} (hrest : rest <:+ ahead)
    (hahead : ahead <:+ s.source.toList) :
    Span.Within s.source ⟨s.offsetOf ahead, s.offsetOf rest⟩ := by
  obtain ⟨text, rfl⟩ := hrest
  obtain ⟨front, hfront⟩ := hahead
  have hsource : s.source.toList = front ++ text ++ rest := by rw [List.append_assoc, hfront]
  rw [offsetOf_eq hfront.symm, offsetOf_eq hsource]
  exact Stretch.within ⟨front, text, rest, hsource⟩

/-- All that a scan gives is at a place of the source. -/
theorem Valid.within_scan (h : s.Valid) :
    (∀ token, s.scan.1 = .ok token → token.span.Within s.source) ∧
      ∀ e, s.scan.1 = .error e → (Error.lexical e).span.Within s.source := by
  have hend : s.endToken.span.Within s.source := within_of_suffix (s := s)
    (List.suffix_refl []) List.nil_suffix
  unfold Scanner.scan
  cases hskip : skipIgnored .blanks s.ahead with
  | nil => exact ⟨by rintro _ ⟨⟩; exact hend, by rintro _ ⟨⟩⟩
  | cons c cs =>
    have hlexeme : c :: cs <:+ s.source.toList :=
      (hskip ▸ skipIgnored_suffix .blanks s.ahead : c :: cs <:+ s.ahead).trans h
    cases hk : (lexeme c cs).outcome with
    | ok k =>
      simp only [hk]
      refine ⟨?_, by rintro _ ⟨⟩⟩
      rintro _ ⟨⟩
      exact within_of_suffix ((lexeme_suffix c cs).trans (List.suffix_cons c cs)) hlexeme
    | error stuck =>
      simp only [hk]
      refine ⟨by rintro _ ⟨⟩, ?_⟩
      rintro _ ⟨⟩
      exact within_of_suffix (List.suffix_refl _) ((lexeme_stuck hk).trans hlexeme)

/-- So is all that a run gives. -/
theorem Valid.within_run (h : s.Valid) :
    (∀ token ∈ s.run.1.found, token.span.Within s.source) ∧
      ∀ e, s.run.1.last = .error e → (Error.lexical e).span.Within s.source := by
  induction hn : s.ahead.length using Nat.strongRecOn generalizing s with
  | ind n ih =>
    obtain ⟨htoken, herror⟩ := h.within_scan
    rcases hscan : s.scan with ⟨e | first, s'⟩
    · rw [hscan] at herror
      rw [run_of_error hscan]
      refine ⟨by simp [Run.found, Except.toOption], ?_⟩
      rintro _ ⟨⟩
      exact herror e rfl
    rw [hscan] at htoken
    cases hend : first.isEnd with
    | true =>
      rw [run_of_end hscan hend]
      refine ⟨?_, by rintro _ ⟨⟩⟩
      simpa [Run.found, Except.toOption] using htoken first rfl
    | false =>
      have hlt := length_ahead_lt hscan hend
      have hsource : s'.source = s.source := by
        rw [← s.source_scan, hscan]
      obtain ⟨hothers, hlast⟩ := ih _ (hn ▸ hlt) (h.scan hscan hend).1 rfl
      rw [hsource] at hothers hlast
      rw [run_of_token hscan hend]
      exact ⟨List.forall_mem_cons.mpr ⟨htoken first rfl, hothers⟩, hlast⟩

end Scanner

/-! ## What a report points at -/

/-- Behind the bytes of the text in front comes the rest. -/
theorem dropBytes?_append (front back : List Char) :
    dropBytes? (byteLength front) (front ++ back) = some back := by
  induction front with
  | nil => cases back <;> rfl
  | cons c front ih =>
    obtain ⟨n, hn⟩ : ∃ n, byteLength (c :: front) = n + 1 :=
      ⟨c.utf8Size + byteLength front - 1, by
        have hpos := c.utf8Size_pos
        rw [byteLength_cons]
        omega⟩
    have hle : c.utf8Size ≤ n + 1 := by
      rw [← hn, byteLength_cons]
      exact Nat.le_add_right _ _
    have hrest : n + 1 - c.utf8Size = byteLength front := by
      rw [← hn, byteLength_cons]
      omega
    rw [hn, List.cons_append, dropBytes?, if_pos hle, hrest, ih]

/-- What a report points at for a range of a source. -/
structure Span.Shows (source : String) (r shown : Span) : Prop where
  within : shown.Within source
  start_le : shown.start ≤ r.start
  le_stop : r.stop ≤ shown.stop
  /-- There is nothing to point at only at the end of the source. -/
  empty : shown.start = shown.stop → r.start = source.utf8ByteSize
  /-- For an empty range it is the character that the range stands in front of. -/
  character : r.start = r.stop → r.start < source.utf8ByteSize →
    ∃ front c back, source.toList = front ++ c :: back ∧ shown.start = byteLength front ∧
      shown.stop = byteLength (front ++ [c])

/-- A range of a source is shown as it is, unless it is empty. -/
theorem Span.Within.visible_eq {source : String} {r : Span} (h : r.Within source) :
    r.visible source.toList =
      if r.start = r.stop then ⟨r.start, r.start + charBytesAt source.toList r.start⟩ else r := by
  have hordered := h.ordered
  have hinside := h.inside
  unfold Span.visible
  rw [byteLength_toList]
  simp only [Nat.min_eq_left hinside, Nat.min_eq_left (Nat.le_trans hordered hinside)]

/-- An empty range is widened to the character behind it, and any other is shown as it is. -/
theorem Span.Within.shows {source : String} {r : Span} (h : r.Within source) :
    r.Shows source (r.visible source.toList) := by
  rw [h.visible_eq]
  split
  · next hempty =>
    obtain ⟨front, back, hsource, hplace⟩ := isValid_iff_exists_append.mp h.start
    have hsize : source.utf8ByteSize = byteLength front + byteLength back := by
      rw [← byteLength_toList, hsource, byteLength_append]
    rw [charBytesAt, hplace, hsource, dropBytes?_append]
    -- At the end of the source there is no character to widen the range by.
    cases back with
    | nil =>
      have hend : r.start = source.utf8ByteSize := by rw [hplace, hsize]; rfl
      exact {
        within := by
          have hsource' : source.toList = front ++ [] ++ [] := by simpa using hsource
          simpa [Stretch.start, Stretch.stop] using Stretch.within ⟨front, [], [], hsource'⟩
        start_le := Nat.le_of_eq hplace.symm
        le_stop := by simp [← hempty, hplace]
        empty := fun _ => hend
        character := fun _ hlt => absurd hend (Nat.ne_of_lt hlt) }
    | cons c back =>
      have hpos := c.utf8Size_pos
      have hsource' : source.toList = front ++ [c] ++ back := by
        rw [hsource, List.append_assoc, List.singleton_append]
      have hstop : byteLength front + c.utf8Size = byteLength (front ++ [c]) := by
        rw [byteLength_append, byteLength_cons, byteLength_nil, Nat.add_zero]
      exact {
        within := by
          show Within source ⟨byteLength front, byteLength front + c.utf8Size⟩
          rw [hstop]
          exact Stretch.within ⟨front, [c], back, hsource'⟩
        start_le := Nat.le_of_eq hplace.symm
        le_stop := by simp [← hempty, hplace]
        empty := fun heq => by dsimp only at heq; omega
        character := fun _ _ => ⟨front, c, back, hsource, rfl, hstop⟩ }
  · next hne =>
    exact {
      within := h
      start_le := Nat.le_refl _
      le_stop := Nat.le_refl _
      empty := fun heq => absurd heq hne
      character := fun heq => absurd heq hne }

/-! ## Errors -/

namespace Document

theorem span_within {limits : Limits} {source : String} {e : Error}
    (h : parseWithin limits source = .error e) : e.span.Within source := by
  have hrun := (Scanner.valid_ofSource source).within_run
  have hread : ∀ depth, parseWithin ⟨depth, none⟩ source = .error e → e.span.Within source := by
    intro depth hdepth
    rcases parseWithin_eq_error_cases hdepth with
      ⟨found, hfound, ⟨fault, rfl⟩ | rfl⟩ | ⟨fault, hlast, rfl⟩
    · exact hrun.1 found hfound
    · exact hrun.1 found hfound
    · exact hrun.2 fault hlast
  obtain ⟨depth, length⟩ := limits
  cases length with
  | none => exact hread depth h
  | some limit =>
    unfold parseWithin at h
    dsimp only at h
    split at h
    · cases h
      exact Stretch.within ⟨[], [], source.toList, rfl⟩
    · exact hread depth h

/-- **An error can be shown in its source.** Its range lies in the source and cuts no character, and
a report points at it or, if it is empty, at the character behind it. -/
theorem span_shows {limits : Limits} {source : String} {e : Error}
    (h : parseWithin limits source = .error e) :
    e.span.Within source ∧ e.span.Shows source (e.span.visible source.toList) :=
  ⟨span_within h, (span_within h).shows⟩

theorem span_shows_of_letter :
    parseWithin {} "\x7b é" = .error (.lexical ⟨.unexpectedSymbol 'é', 2⟩) ∧
      Span.Shows "\x7b é" ⟨2, 2⟩ ⟨2, 4⟩ :=
  have h : parseWithin {} "\x7b é" = .error (.lexical ⟨.unexpectedSymbol 'é', 2⟩) := by rfl
  ⟨h, (span_shows h).2⟩

end Document

end GraphQLSyntax
