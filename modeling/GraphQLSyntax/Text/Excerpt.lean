import GraphQLSyntax.Text.Bytes
import GraphQLSyntax.Text.CodePoints

/-!
# Excerpts

The line of a text that holds a given byte, as it is shown under a message. Here a line ends at a
line feed, with or without a carriage return in front of it, and a terminator at the end of the
text does not start another line.
-/

namespace GraphQLSyntax

/-- The characters that end within the first `n` bytes. -/
def takeBytes : Nat → List Char → List Char
  | _, [] => []
  | n, c :: cs => if c.utf8Size ≤ n then c :: takeBytes (n - c.utf8Size) cs else []

/-- The text behind the first `n` bytes, none if a character is cut there. -/
def dropBytes? : Nat → List Char → Option (List Char)
  | 0, cs => some cs
  | _ + 1, [] => none
  | n + 1, c :: cs => if c.utf8Size ≤ n + 1 then dropBytes? (n + 1 - c.utf8Size) cs else none

/-- A line of a text, with its number from one and the offset of its first byte. -/
structure TextLine where
  number : Nat
  start : Nat
  text : List Char
deriving DecidableEq, Repr

/-- A line without the carriage return in front of its line feed. -/
def dropReturn (line : List Char) : List Char :=
  if line.getLast? = some '\r' then line.dropLast else line

/-- The line that holds the byte at `offset`, terminator included, or else the last line. The line
at the front of `cs` has the given number and first byte. -/
def lineHolding (offset number start : Nat) (cs : List Char) : TextLine :=
  let line := cs.takeWhile (· ≠ '\n')
  match h : cs.dropWhile (· ≠ '\n') with
  | [] => ⟨number, start, line⟩
  | _ :: rest =>
    let next := start + byteLength line + 1
    if offset < next ∨ rest = [] then
      ⟨number, start, dropReturn line⟩
    else
      lineHolding offset (number + 1) next rest
termination_by cs.length
decreasing_by
  have := (List.dropWhile_sublist (· ≠ '\n') (l := cs)).length_le
  rw [h, List.length_cons] at this
  omega

/-- The line of a text that holds the byte at `offset`. -/
def lineAt (offset : Nat) (text : List Char) : TextLine :=
  lineHolding offset 1 0 text

namespace TextLine

/-- The part of the line in front of a byte of the text. -/
def before (l : TextLine) (offset : Nat) : List Char :=
  takeBytes (offset - l.start) l.text

/-- The column of a byte of the text, counted in characters from one. The terminator is one
character, of which a place behind its first byte is past. -/
def column (l : TextLine) (offset : Nat) : Nat :=
  (l.before offset).length + 1 + if l.start + byteLength l.text < offset then 1 else 0

/-- The line as it is displayed, tabs as spaces. -/
def shown (l : TextLine) : List Char :=
  l.text.flatMap fun c => if c = '\t' then List.replicate (charWidth c) ' ' else [c]

end TextLine

end GraphQLSyntax
