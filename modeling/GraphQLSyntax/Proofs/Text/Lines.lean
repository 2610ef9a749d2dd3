import GraphQLSyntax.Text.BlockString

/-!
# Lines and their terminators

A text is its lines with a terminator between each of them and the next, and in no other way: a
carriage return in front of a line feed is one terminator with it.

* `lines_eq_iff`: the lines of a text are what its terminators split it into.
* `splitsInto_indentLines`: text behind each terminator is text in front of each later line.
* `splitsInto_normalizeLineEnds`: the lines do not depend on how they are terminated.
-/

namespace GraphQLSyntax

/-! ## Splitting -/

/-- The text holds no part of a terminator. -/
def IsLine (line : List Char) : Prop :=
  ∀ c ∈ line, c ≠ '\r' ∧ c ≠ '\n'

theorem isLine_nil : IsLine [] := by
  simp [IsLine]

/-- The terminators that `rest` can stand behind. -/
inductive EndsLine (rest : List Char) : List Char → Prop
  | lineFeed : EndsLine rest ['\n']
  | both : EndsLine rest ['\r', '\n']
  | carriageReturn (h : rest.head? ≠ some '\n') : EndsLine rest ['\r']

/-- The text is these lines, each but the last with a terminator behind it. -/
inductive SplitsInto : List Char → List (List Char) → Prop
  | last {line} (hline : IsLine line) : SplitsInto line [line]
  | more {line terminator rest ls} (hline : IsLine line) (hends : EndsLine rest terminator)
      (others : SplitsInto rest ls) : SplitsInto (line ++ (terminator ++ rest)) (line :: ls)

variable {line rest raw terminator : List Char} {ls : List (List Char)}

theorem lines_terminator (h : EndsLine rest terminator) :
    lines (terminator ++ rest) = [] :: lines rest := by
  cases h with
  | lineFeed => rfl
  | both => rfl
  | carriageReturn h =>
    show lines ('\r' :: rest) = _
    rw [lines]
    rintro tail rfl
    exact h rfl

theorem lines_append {first : List Char} {more : List (List Char)} (hline : IsLine line)
    (h : lines rest = first :: more) : lines (line ++ rest) = (line ++ first) :: more := by
  induction line with
  | nil => exact h
  | cons c line ih =>
    obtain ⟨⟨hreturn, hfeed⟩, hline⟩ := List.forall_mem_cons.mp hline
    exact lines_cons hreturn hfeed (ih hline)

/-- Text in front of the first line. -/
theorem SplitsInto.append {front first : List Char} {more : List (List Char)}
    (hfront : IsLine front) (h : SplitsInto raw (first :: more)) :
    SplitsInto (front ++ raw) ((front ++ first) :: more) := by
  cases h with
  | last hline => exact .last (List.forall_mem_append.mpr ⟨hfront, hline⟩)
  | more hline hends others =>
    rw [← List.append_assoc]
    exact .more (List.forall_mem_append.mpr ⟨hfront, hline⟩) hends others

theorem splitsInto_lines (raw : List Char) : SplitsInto raw (lines raw) := by
  fun_induction lines raw with
  | case1 => exact .last isLine_nil
  | case2 cs ih => exact .more isLine_nil .both ih
  | case3 cs hfeed ih =>
    refine .more isLine_nil (.carriageReturn fun hhead => ?_) ih
    obtain ⟨tail, rfl⟩ := List.head?_eq_some_iff.mp hhead
    exact hfeed tail rfl
  | case4 cs ih => exact .more isLine_nil .lineFeed ih
  | case5 c cs _ hreturn hfeed ih =>
    obtain ⟨first, more, hlines⟩ := List.exists_cons_of_ne_nil (lines_ne_nil cs)
    rw [hlines] at ih ⊢
    have hc : IsLine [c] := List.forall_mem_singleton.mpr ⟨hreturn, hfeed⟩
    exact ih.append hc

/-- The lines of a text are what its terminators split it into. -/
theorem lines_eq_iff : lines raw = ls ↔ SplitsInto raw ls := by
  constructor
  · rintro rfl
    exact splitsInto_lines raw
  · intro h
    induction h with
    | @last line hline =>
      have hlines := lines_append hline (show lines [] = [[]] from rfl)
      rwa [List.append_nil] at hlines
    | @more line terminator rest ls hline hends others ih =>
      rw [lines_append hline (lines_terminator hends), List.append_nil, ih]

/-! ## Other terminators -/

/-- The text with other terminators, each what `f` makes of the one that stood there. -/
def replaceLineEnds (f : List Char → List Char) : List Char → List Char
  | [] => []
  | '\r' :: '\n' :: cs => f ['\r', '\n'] ++ replaceLineEnds f cs
  | '\r' :: cs => f ['\r'] ++ replaceLineEnds f cs
  | '\n' :: cs => f ['\n'] ++ replaceLineEnds f cs
  | c :: cs => c :: replaceLineEnds f cs

/-- The text with `indent` in front of each line but the first. -/
def indentLines (indent : List Char) : List Char → List Char :=
  replaceLineEnds (· ++ indent)

/-- The text with a line feed for each terminator. -/
def normalizeLineEnds : List Char → List Char :=
  replaceLineEnds fun _ => ['\n']

variable {f : List Char → List Char}

theorem replaceLineEnds_terminator (h : EndsLine rest terminator) :
    replaceLineEnds f (terminator ++ rest) = f terminator ++ replaceLineEnds f rest := by
  cases h with
  | lineFeed => rfl
  | both => rfl
  | carriageReturn h =>
    show replaceLineEnds f ('\r' :: rest) = _
    rw [replaceLineEnds]
    rintro tail rfl
    exact h rfl

theorem replaceLineEnds_append (hline : IsLine line) (rest : List Char) :
    replaceLineEnds f (line ++ rest) = line ++ replaceLineEnds f rest := by
  induction line with
  | nil => rfl
  | cons c line ih =>
    obtain ⟨⟨hreturn, hfeed⟩, hline⟩ := List.forall_mem_cons.mp hline
    rw [List.cons_append, replaceLineEnds, ih hline]
    · rfl
    · exact fun _ hc _ => hreturn hc
    · exact hreturn
    · exact hfeed

theorem replaceLineEnds_line (hline : IsLine line) : replaceLineEnds f line = line := by
  have hsame := replaceLineEnds_append (f := f) hline []
  rwa [replaceLineEnds, List.append_nil] at hsame

/-- The lines do not depend on how they are terminated. -/
theorem splitsInto_normalizeLineEnds (h : SplitsInto raw ls) :
    SplitsInto (normalizeLineEnds raw) ls := by
  unfold normalizeLineEnds
  induction h with
  | last hline =>
    rw [replaceLineEnds_line hline]
    exact .last hline
  | more hline hends _ ih =>
    rw [replaceLineEnds_append hline, replaceLineEnds_terminator hends]
    exact .more hline .lineFeed ih

/-- No line feed comes to stand behind a carriage return that had none. -/
private theorem head_replaceLineEnds {indent : List Char} (h : raw.head? ≠ some '\n') :
    (replaceLineEnds (· ++ indent) raw).head? ≠ some '\n' := by
  fun_cases replaceLineEnds (· ++ indent) raw with
  | case1 | case2 | case3 => simp
  | case4 => exact absurd rfl h
  | case5 => exact h

/-- The terminator is the same one in front of an indented line. -/
private theorem endsLine_indentLines {indent : List Char} (hindent : IsLine indent)
    (h : EndsLine rest terminator) : EndsLine (indent ++ indentLines indent rest) terminator := by
  cases h with
  | lineFeed => exact .lineFeed
  | both => exact .both
  | carriageReturn h =>
    refine .carriageReturn ?_
    cases indent with
    | nil => exact head_replaceLineEnds h
    | cons c indent =>
      intro hhead
      exact (hindent c List.mem_cons_self).2 (Option.some.inj hhead)

/-- Text behind each terminator is text in front of each later line. -/
theorem splitsInto_indentLines {indent first : List Char} {more : List (List Char)}
    (hindent : IsLine indent) (h : SplitsInto raw (first :: more)) :
    SplitsInto (indentLines indent raw) (first :: more.map (indent ++ ·)) := by
  generalize hls : first :: more = ls at h
  induction h generalizing first more with
  | last hline =>
    cases hls
    unfold indentLines
    rw [replaceLineEnds_line hline]
    exact .last hline
  | @more line terminator rest ls hline hends others ih =>
    cases hls
    obtain ⟨first, more, hls⟩ : ∃ first more, ls = first :: more := by
      cases others <;> exact ⟨_, _, rfl⟩
    have hindented : indentLines indent (line ++ (terminator ++ rest)) =
        line ++ (terminator ++ (indent ++ indentLines indent rest)) := by
      unfold indentLines
      rw [replaceLineEnds_append hline, replaceLineEnds_terminator hends, List.append_assoc]
    rw [hindented, hls]
    exact .more hline (endsLine_indentLines hindent hends) ((ih hls.symm).append hindent)

end GraphQLSyntax
