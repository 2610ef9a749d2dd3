import GraphQLSyntax.Proofs.Text.Lines
import GraphQLSyntax.Text.BlockString
import GraphQLSyntax.Text.Bytes
import Mathlib.Data.List.DropRight
import Mathlib.Order.Bounds.Basic

/-!
# What dedenting takes away

Dedenting takes the indentation that the later lines of a text have in common off these lines, and
the blank lines at both ends. Nothing else is taken away but the terminators, for which there are
line feeds. So it makes no difference how far all later lines are indented together, or how lines
are terminated.

* `isCommonIndentation`: the common indentation is the greatest that no later line falls short of.
* `exists_dedented`: the lines that are left, and what is taken off each of them.
* `dedent_takes_common_indentation`: the same with what makes no difference.
-/

namespace GraphQLSyntax

/-! ## Indentation -/

/-- The line holds spaces and tabs only. -/
def IsBlank (line : List Char) : Prop :=
  ∀ c ∈ line, c = ' ' ∨ c = '\t'

/-- The line begins with so many spaces and tabs, or more. -/
def BeginsIndented (n : Nat) (line : List Char) : Prop :=
  ∃ indent rest, line = indent ++ rest ∧ indent.length = n ∧ IsBlank indent

/-- The indentation that these lines have in common. Blank lines do not count, and without any other
line it is zero. -/
structure IsCommonIndentation (ls : List (List Char)) (common : Nat) : Prop where
  greatest : (∃ line ∈ ls, ¬ IsBlank line) →
    IsGreatest {n | ∀ line ∈ ls, ¬ IsBlank line → BeginsIndented n line} common
  zero : (∀ line ∈ ls, IsBlank line) → common = 0

/-- A line of which spaces and tabs are taken off the front. -/
structure CutLine where
  taken : List Char
  kept : List Char
  blank : IsBlank taken

def CutLine.line (l : CutLine) : List Char :=
  l.taken ++ l.kept

/-- As many characters and as many bytes are taken, up to all of the line. -/
def CutLine.CutAt (common : Nat) (l : CutLine) : Prop :=
  l.taken.length = min common l.line.length ∧
    byteLength l.taken = min common (byteLength l.line)

/-- What a text with these lines is made into. -/
structure Dedented (common : Nat) (ls : List CutLine) (value : List Char) : Prop where
  indentation : IsCommonIndentation (ls.tail.map CutLine.line) common
  /-- Nothing is taken off the first line. -/
  first : ∀ l, ls.head? = some l → l.taken = []
  later : ∀ l ∈ ls.tail, l.CutAt common
  blank : (∀ l ∈ ls, IsBlank l.line) → value = []
  /-- Of the lines those are left that are not blank, and those between them. -/
  joined : (∃ l ∈ ls, ¬ IsBlank l.line) → ∃ before kept after, ls = before ++ kept ++ after ∧
    (∀ l ∈ before, IsBlank l.line) ∧ (∀ l ∈ after, IsBlank l.line) ∧
    (∃ l, kept.head? = some l ∧ ¬ IsBlank l.line) ∧
    (∃ l, kept.getLast? = some l ∧ ¬ IsBlank l.line) ∧
    value = ['\n'].intercalate (kept.map CutLine.kept)

variable {line indent : List Char} {ls : List (List Char)}

theorem isIndent_iff {c : Char} : isIndent c = true ↔ c = ' ' ∨ c = '\t' := by
  simp [isIndent]

theorem isBlankLine_iff : isBlankLine line = true ↔ IsBlank line := by
  simp only [isBlankLine, List.all_eq_true, isIndent_iff, IsBlank]

theorem isBlank_append {front back : List Char} :
    IsBlank (front ++ back) ↔ IsBlank front ∧ IsBlank back :=
  List.forall_mem_append

theorem beginsIndented_iff {n : Nat} : BeginsIndented n line ↔ n ≤ indentation line := by
  constructor
  · rintro ⟨indent, rest, rfl, rfl, hindent⟩
    rw [indentation, List.takeWhile_append_of_pos fun c hc => isIndent_iff.mpr (hindent c hc),
      List.length_append]
    exact Nat.le_add_right _ _
  · intro h
    refine ⟨line.take n, line.drop n, (List.take_append_drop n line).symm, ?_, fun c hc => ?_⟩
    · exact List.length_take_of_le (Nat.le_trans h (List.takeWhile_prefix isIndent).length_le)
    · have hindent : line.take n <+: line.takeWhile isIndent :=
        List.prefix_of_prefix_length_le (List.take_prefix n line) (List.takeWhile_prefix isIndent)
          (Nat.le_trans (List.length_take_le n line) h)
      exact isIndent_iff.mp (List.mem_takeWhile_imp (hindent.subset hc))

theorem indentation_append (h : IsBlank indent) (line : List Char) :
    indentation (indent ++ line) = indent.length + indentation line := by
  rw [indentation, List.takeWhile_append_of_pos fun c hc => isIndent_iff.mpr (h c hc),
    List.length_append]
  rfl

/-- The common indentation is the greatest that no line falls short of. -/
theorem isCommonIndentation (ls : List (List Char)) :
    IsCommonIndentation ls (commonIndentation ls) := by
  have hmem : ∀ line, line ∈ ls.filter (!isBlankLine ·) ↔ line ∈ ls ∧ ¬ IsBlank line := by
    simp [← isBlankLine_iff]
  rw [commonIndentation]
  -- If all lines are blank, there is no greatest one, and nothing is cut.
  cases hmin : ((ls.filter (!isBlankLine ·)).map indentation).min? with
  | none =>
    have hnone : ls.filter (!isBlankLine ·) = [] := by simpa using hmin
    constructor
    · rintro ⟨line, hline⟩
      have hempty := (hmem line).mpr hline
      rw [hnone] at hempty
      cases hempty
    · exact fun _ => rfl
  | some n =>
    obtain ⟨hn, hle⟩ := List.min?_eq_some_iff.mp hmin
    obtain ⟨line, hline, rfl⟩ := List.mem_map.mp hn
    constructor
    · refine fun _ => ⟨fun other hother hblank => beginsIndented_iff.mpr ?_, fun m hm => ?_⟩
      · exact hle _ (List.mem_map_of_mem ((hmem other).mpr ⟨hother, hblank⟩))
      · obtain ⟨hls, hblank⟩ := (hmem line).mp hline
        exact beginsIndented_iff.mp (hm line hls hblank)
    · intro hall
      obtain ⟨hls, hblank⟩ := (hmem line).mp hline
      exact absurd (hall line hls) hblank

theorem IsCommonIndentation.unique {m n : Nat} (h : IsCommonIndentation ls m)
    (h' : IsCommonIndentation ls n) : m = n := by
  by_cases hblank : ∀ line ∈ ls, IsBlank line
  · rw [h.zero hblank, h'.zero hblank]
  · have hsome : ∃ line ∈ ls, ¬ IsBlank line := by simpa using hblank
    exact (h.greatest hsome).unique (h'.greatest hsome)

/-! ## Cutting lines -/

theorem CutLine.isBlank_line {l : CutLine} : IsBlank l.line ↔ IsBlank l.kept := by
  simp [line, isBlank_append, l.blank]

/-- Spaces and tabs are one byte each. -/
theorem byteLength_of_isBlank (h : IsBlank line) : byteLength line = line.length := by
  induction line with
  | nil => rfl
  | cons c line ih =>
    obtain ⟨hc, hline⟩ := List.forall_mem_cons.mp h
    have hsize : c.utf8Size = 1 := by
      rcases hc with rfl | rfl <;> rfl
    rw [byteLength_cons, List.length_cons, ih hline, hsize, Nat.add_comm]

/-- Lines that begin with spaces and tabs can be cut behind them. -/
theorem exists_cut {common : Nat} (h : ∀ line ∈ ls, IsBlank (line.take common)) :
    ∃ cut : List CutLine, cut.map CutLine.line = ls ∧
      cut.map CutLine.kept = ls.map (·.drop common) ∧ ∀ l ∈ cut, l.CutAt common := by
  induction ls with
  | nil => exact ⟨[], rfl, rfl, by simp⟩
  | cons line ls ih =>
    obtain ⟨hline, hls⟩ := List.forall_mem_cons.mp h
    obtain ⟨cut, hlines, hkept, hcut⟩ := ih hls
    have heq : (CutLine.mk (line.take common) (line.drop common) hline).line = line :=
      List.take_append_drop common line
    refine ⟨⟨line.take common, line.drop common, hline⟩ :: cut, ?_, ?_, ?_⟩
    · rw [List.map_cons, heq, hlines]
    · rw [List.map_cons, List.map_cons, hkept]
    · refine List.forall_mem_cons.mpr ⟨⟨?_, ?_⟩, hcut⟩
      · rw [heq, List.length_take]
      · rw [heq, byteLength_of_isBlank hline, List.length_take]
        by_cases hle : common ≤ line.length
        · have hbytes := length_le_byteLength line
          omega
        · -- A line that ends in front of the cut is blank.
          rw [List.take_of_length_le (by omega)] at hline
          rw [byteLength_of_isBlank hline]

/-- So can all lines at their common indentation. -/
theorem isBlank_take_commonIndentation (ls : List (List Char)) :
    ∀ line ∈ ls, IsBlank (line.take (commonIndentation ls)) := by
  intro line hline
  by_cases hblank : IsBlank line
  · exact fun c hc => hblank c (List.mem_of_mem_take hc)
  · obtain ⟨indent, rest, rfl, hlength, hindent⟩ :=
      ((isCommonIndentation ls).greatest ⟨line, hline, hblank⟩).1 line hline hblank
    rwa [List.take_append_of_le_length (Nat.le_of_eq hlength.symm),
      List.take_of_length_le (Nat.le_of_eq hlength)]

/-! ## Blank lines at both ends -/

section Ends

variable {α : Type} {p : α → Bool} {xs : List α}

/-- What is left of a list without the elements at both ends that have a property. -/
private theorem exists_ends (h : ∃ x ∈ xs, ¬ p x = true) : ∃ before after,
    xs = before ++ (xs.dropWhile p).rdropWhile p ++ after ∧
      (∀ x ∈ before, p x = true) ∧ (∀ x ∈ after, p x = true) ∧
      (∃ x, ((xs.dropWhile p).rdropWhile p).head? = some x ∧ ¬ p x = true) ∧
      (∃ x, ((xs.dropWhile p).rdropWhile p).getLast? = some x ∧ ¬ p x = true) := by
  have hne : (xs.dropWhile p).rdropWhile p ≠ [] := by
    intro hnil
    obtain ⟨x, hx, hfalse⟩ := h
    apply hfalse
    rw [← List.takeWhile_append_dropWhile (p := p) (l := xs)] at hx
    rcases List.mem_append.mp hx with hx | hx
    · exact List.mem_takeWhile_imp hx
    · exact List.rdropWhile_eq_nil_iff.mp hnil x hx
  refine ⟨xs.takeWhile p, (xs.dropWhile p).rtakeWhile p, ?_, ?_, ?_, ?_, ?_⟩
  · rw [List.append_assoc, List.rdropWhile_append_rtakeWhile, List.takeWhile_append_dropWhile]
  · exact fun x hx => List.mem_takeWhile_imp hx
  · exact fun x hx => List.mem_rtakeWhile_imp hx
  · obtain ⟨x, kept, hkept⟩ := List.exists_cons_of_ne_nil hne
    obtain ⟨after, hafter⟩ := List.rdropWhile_prefix p (xs.dropWhile p)
    have hhead := List.head?_dropWhile_not p xs
    rw [← hafter, hkept] at hhead
    exact ⟨x, by rw [hkept]; rfl, Bool.eq_false_iff.mp hhead⟩
  · exact ⟨_, List.getLast?_eq_some_getLast hne, List.rdropWhile_last_not p _ hne⟩

theorem trimBlankLines_map (f : α → List Char) (xs : List α) :
    trimBlankLines (xs.map f) =
      ((xs.dropWhile (isBlankLine ∘ f)).rdropWhile (isBlankLine ∘ f)).map f := by
  rw [trimBlankLines, List.rdropWhile, List.dropWhile_map, ← List.map_reverse, List.dropWhile_map,
    ← List.map_reverse]

end Ends

theorem trimBlankLines_eq_nil (h : ∀ line ∈ ls, IsBlank line) : trimBlankLines ls = [] := by
  have hnone : ls.dropWhile isBlankLine = [] :=
    List.dropWhile_eq_nil_iff.mpr fun line hline => isBlankLine_iff.mpr (h line hline)
  rw [trimBlankLines, hnone]
  rfl

/-- The lines that are left, and the blank ones in front of them and behind. -/
theorem exists_trimmed {cut : List CutLine} (h : ∃ l ∈ cut, ¬ IsBlank l.line) :
    ∃ before kept after, cut = before ++ kept ++ after ∧
      (∀ l ∈ before, IsBlank l.line) ∧ (∀ l ∈ after, IsBlank l.line) ∧
      (∃ l, kept.head? = some l ∧ ¬ IsBlank l.line) ∧
      (∃ l, kept.getLast? = some l ∧ ¬ IsBlank l.line) ∧
      trimBlankLines (cut.map CutLine.kept) = kept.map CutLine.kept := by
  have hblank : ∀ l : CutLine, (isBlankLine ∘ CutLine.kept) l = true ↔ IsBlank l.line :=
    fun l => isBlankLine_iff.trans l.isBlank_line.symm
  simp only [← hblank] at h ⊢
  obtain ⟨before, after, heq, hbefore, hafter, hhead, hlast⟩ := exists_ends h
  exact ⟨before, _, after, heq, hbefore, hafter, hhead, hlast, trimBlankLines_map _ _⟩

/-! ## Dedenting -/

theorem dedent_eq {first : List Char} {more : List (List Char)} {raw : List Char}
    (h : lines raw = first :: more) :
    dedent raw = ['\n'].intercalate (trimBlankLines
      (first :: more.map (·.drop (commonIndentation more)))) := by
  rw [dedent, h, stripIndentation]

/-- The lines of a text can be cut so that it is dedented to those that are left. -/
theorem exists_dedented (raw : List Char) : ∃ common cut,
    SplitsInto raw (cut.map CutLine.line) ∧ Dedented common cut (dedent raw) := by
  obtain ⟨first, more, hlines⟩ := List.exists_cons_of_ne_nil (lines_ne_nil raw)
  obtain ⟨cut, rfl, hkept, hcut⟩ := exists_cut (isBlank_take_commonIndentation more)
  have hdedent := dedent_eq hlines
  rw [← hkept] at hdedent
  let uncut : CutLine := ⟨[], first, by simp [IsBlank]⟩
  refine ⟨_, uncut :: cut, lines_eq_iff.mp hlines, isCommonIndentation _, ?_, hcut, ?_, ?_⟩
  · rintro l ⟨⟩
    rfl
  · intro hblank
    have hnone : ∀ line ∈ (uncut :: cut).map CutLine.kept, IsBlank line :=
      List.forall_mem_map.mpr fun l hl => l.isBlank_line.mp (hblank l hl)
    rw [hdedent]
    exact congrArg _ (trimBlankLines_eq_nil hnone)
  · intro hblank
    obtain ⟨before, kept, after, heq, hbefore, hafter, hhead, hlast, htrim⟩ := exists_trimmed hblank
    refine ⟨before, kept, after, heq, hbefore, hafter, hhead, hlast, ?_⟩
    rw [hdedent, ← htrim]
    rfl

/-! ## What makes no difference -/

/-- Where a line is not blank, so is the line with more indentation. -/
private theorem isBlank_indent (h : IsBlank indent) : IsBlank (indent ++ line) ↔ IsBlank line := by
  simp [isBlank_append, h]

/-- Lines that are indented together have more indentation in common. -/
theorem commonIndentation_map (hindent : IsBlank indent) (h : ∃ line ∈ ls, ¬ IsBlank line) :
    commonIndentation (ls.map (indent ++ ·)) = indent.length + commonIndentation ls := by
  obtain ⟨hbegins, hgreatest⟩ := (isCommonIndentation ls).greatest h
  refine (isCommonIndentation _).unique ⟨fun _ => ⟨?_, fun n hn => ?_⟩, fun hblank => ?_⟩
  · refine List.forall_mem_map.mpr fun line hline hblank => ?_
    rw [beginsIndented_iff, indentation_append hindent]
    exact Nat.add_le_add_left (beginsIndented_iff.mp
      (hbegins line hline ((isBlank_indent hindent).not.mp hblank))) _
  · have hless : n - indent.length ≤ commonIndentation ls := by
      refine hgreatest fun line hline hblank => beginsIndented_iff.mpr ?_
      have hindented := beginsIndented_iff.mp (hn _ (List.mem_map_of_mem hline)
        ((isBlank_indent hindent).not.mpr hblank))
      rw [indentation_append hindent] at hindented
      omega
    omega
  · obtain ⟨line, hline, hnot⟩ := h
    exact absurd ((isBlank_indent hindent).mp (hblank _ (List.mem_map_of_mem hline))) hnot

/-- Blank lines behind the first are dropped. -/
private theorem trimBlankLines_cons (first : List Char) (h : ∀ line ∈ ls, IsBlank line) :
    trimBlankLines (first :: ls) = trimBlankLines [first] := by
  by_cases hfirst : IsBlank first
  · rw [trimBlankLines_eq_nil (List.forall_mem_cons.mpr ⟨hfirst, h⟩),
      trimBlankLines_eq_nil (List.forall_mem_singleton.mpr hfirst)]
  · have hnot : ¬ isBlankLine first = true := isBlankLine_iff.not.mpr hfirst
    have hblank : ∀ line ∈ ls.reverse, isBlankLine line = true := fun line hline =>
      isBlankLine_iff.mpr (h line (List.mem_reverse.mp hline))
    rw [trimBlankLines, trimBlankLines, List.dropWhile_cons_of_neg hnot,
      List.dropWhile_cons_of_neg hnot, List.reverse_cons, List.dropWhile_append_of_pos hblank]
    rfl

/-- So nothing changes when all lines but the first are indented together. -/
theorem trimBlankLines_strip (hindent : IsBlank indent) (first : List Char)
    (more : List (List Char)) :
    trimBlankLines (stripIndentation (first :: more.map (indent ++ ·))) =
      trimBlankLines (stripIndentation (first :: more)) := by
  simp only [stripIndentation]
  by_cases h : ∃ line ∈ more, ¬ IsBlank line
  · rw [commonIndentation_map hindent h, List.map_map]
    congr 3
    funext line
    exact List.drop_length_add_append ..
  · have hblank : ∀ line ∈ more, IsBlank line := by simpa using h
    have hdrop : ∀ n, ∀ line ∈ more.map (·.drop n), IsBlank line := fun n =>
      List.forall_mem_map.mpr fun line hline c hc => hblank line hline c (List.mem_of_mem_drop hc)
    rw [trimBlankLines_cons first (hdrop _), trimBlankLines_cons]
    refine List.forall_mem_map.mpr fun indented hindented c hc => ?_
    obtain ⟨line, hline, rfl⟩ := List.mem_map.mp hindented
    exact (isBlank_indent hindent).mpr (hblank line hline) c (List.mem_of_mem_drop hc)

theorem isLine_of_isBlank (h : IsBlank line) : IsLine line := by
  intro c hc
  rcases h c hc with rfl | rfl <;> decide

theorem dedent_indentLines (hindent : IsBlank indent) (raw : List Char) :
    dedent (indentLines indent raw) = dedent raw := by
  obtain ⟨first, more, hlines⟩ := List.exists_cons_of_ne_nil (lines_ne_nil raw)
  have hindented : lines (indentLines indent raw) = first :: more.map (indent ++ ·) :=
    lines_eq_iff.mpr (splitsInto_indentLines (isLine_of_isBlank hindent) (lines_eq_iff.mp hlines))
  rw [dedent, hindented, trimBlankLines_strip hindent, dedent, hlines]

theorem dedent_normalizeLineEnds (raw : List Char) : dedent (normalizeLineEnds raw) = dedent raw := by
  have hlines : lines (normalizeLineEnds raw) = lines raw :=
    lines_eq_iff.mpr (splitsInto_normalizeLineEnds (splitsInto_lines raw))
  rw [dedent, hlines, dedent]

/-- **Dedenting takes away the common indentation and the blank lines at both ends**, and so it
makes no difference how far the later lines are indented together or how lines are terminated. -/
theorem dedent_takes_common_indentation (raw : List Char) :
    (∃ common cut, SplitsInto raw (cut.map CutLine.line) ∧ Dedented common cut (dedent raw)) ∧
      (∀ indent, IsBlank indent → dedent (indentLines indent raw) = dedent raw) ∧
      dedent (normalizeLineEnds raw) = dedent raw :=
  ⟨exists_dedented raw, fun _ hindent => dedent_indentLines hindent raw,
    dedent_normalizeLineEnds raw⟩

/-- Two spaces or tabs are taken off, whatever ends the lines and however far they are indented. -/
theorem dedent_takes_two_characters :
    dedent (indentLines "\t ".toList "\r\n   a\r\t\té\n   \r".toList) = " a\né".toList ∧
      dedent (normalizeLineEnds "\r\n   a\r\t\té\n   \r".toList) = " a\né".toList := by
  obtain ⟨-, hindent, hnormalize⟩ :=
    dedent_takes_common_indentation "\r\n   a\r\t\té\n   \r".toList
  have hvalue : dedent "\r\n   a\r\t\té\n   \r".toList = " a\né".toList := by decide
  exact ⟨(hindent _ (by simp [IsBlank])).trans hvalue, hnormalize.trans hvalue⟩

end GraphQLSyntax
