/-!
# Lines and block strings

A line ends at a line feed, a carriage return, or a carriage return with a line feed behind it.
A terminator always starts another line, so a text has one line more than it has terminators.

* `lines_ne_nil`: even the empty text has a line.
* `lines_cons`: what ends no line belongs to the first.

The raw content of a block string is a text whose indentation belongs to the document around it.
`dedent` takes it away: it strips the indentation that all lines but the first share, and drops
the blank lines at both ends. A line is blank if it holds spaces and tabs only.
-/

namespace GraphQLSyntax

/-! ## Lines -/

/-- Puts `c` in front of the first line. -/
private def prependToFirst (c : Char) : List (List Char) → List (List Char)
  | [] => [[c]]
  | line :: more => (c :: line) :: more

/-- The lines of a text, without their terminators. -/
def lines : List Char → List (List Char)
  | [] => [[]]
  | '\r' :: '\n' :: cs => [] :: lines cs
  | '\r' :: cs => [] :: lines cs
  | '\n' :: cs => [] :: lines cs
  | c :: cs => prependToFirst c (lines cs)

theorem lines_ne_nil (cs : List Char) : lines cs ≠ [] := by
  fun_induction lines cs <;> simp [prependToFirst]
  split <;> simp

theorem lines_cons {c : Char} {cs line : List Char} {more : List (List Char)} (hreturn : c ≠ '\r')
    (hfeed : c ≠ '\n') (h : lines cs = line :: more) : lines (c :: cs) = (c :: line) :: more := by
  rw [lines, h]
  · rfl
  · exact fun _ hc _ => hreturn hc
  · exact hreturn
  · exact hfeed

/-! ## Block strings -/

/-- Spaces and tabs indent a line. -/
def isIndent (c : Char) : Bool :=
  c == ' ' || c == '\t'

def isBlankLine (line : List Char) : Bool :=
  line.all isIndent

/-- How far a line is indented. -/
def indentation (line : List Char) : Nat :=
  (line.takeWhile isIndent).length

/-- The indentation that all the lines share. Blank lines do not count, and without any other
line it is zero. -/
def commonIndentation (ls : List (List Char)) : Nat :=
  ((ls.filter (!isBlankLine ·)).map indentation).min?.getD 0

/-- The lines from the first to the last that is not blank. -/
def trimBlankLines (ls : List (List Char)) : List (List Char) :=
  ((ls.dropWhile isBlankLine).reverse.dropWhile isBlankLine).reverse

/-- The lines with the common indentation of all but the first taken off all but the first. A
line that is shorter becomes empty. -/
def stripIndentation : List (List Char) → List (List Char)
  | [] => []
  | first :: more =>
    let common := commonIndentation more
    first :: more.map (·.drop common)

/-- The value of a block string with this raw content. -/
def dedent (raw : List Char) : List Char :=
  ['\n'].intercalate (trimBlankLines (stripIndentation (lines raw)))

end GraphQLSyntax
