import GraphQLSyntax.Error
import GraphQLSyntax.Text.Excerpt

/-!
# Diagnostics

An error is reported in one line, or with the line of the source that it is about and a row of
carets under the bytes to point at. An empty range is widened to the character that it stands in
front of, so that there is something to point at.
-/

namespace GraphQLSyntax

/-! ## What to point at -/

/-- The bytes of the character behind a byte offset, none at the end of the text. -/
def charBytesAt (text : List Char) (offset : Nat) : Nat :=
  match dropBytes? offset text with
  | some (c :: _) => c.utf8Size
  | _ => 0

/-- The range within the text, widened to a character if it is empty. -/
def Span.visible (s : Span) (text : List Char) : Span :=
  let size := byteLength text
  let start := min s.start size
  let stop := min s.stop size
  if start = stop then ⟨start, start + charBytesAt text start⟩ else ⟨start, stop⟩

/-! ## Reports -/

/-- Control sequences of a terminal that set off the parts of a report. -/
structure Style where
  bold : String
  red : String
  blue : String
  reset : String

namespace Style

/-- No control sequences. -/
def plain : Style where
  bold := ""
  red := ""
  blue := ""
  reset := ""

def colored : Style where
  bold := "\x1b[1m"
  red := "\x1b[91m"
  blue := "\x1b[94m"
  reset := "\x1b[0m"

/-- Text of the frame around an excerpt. -/
def frame (s : Style) (text : String) : String :=
  s.bold ++ s.blue ++ text ++ s.reset

/-- Text that points out the error. -/
def alert (s : Style) (text : String) : String :=
  s.bold ++ s.red ++ text ++ s.reset

end Style

private def spaces (n : Nat) : String :=
  String.ofList (List.replicate n ' ')

private def decimal (n : Nat) : String :=
  String.ofList (Nat.toDigits 10 n)

/-- The lines of a report on `span` of `source`. -/
def excerptLines (style : Style) (path : Option String) (source : List Char) (span : Span) :
    List String :=
  let line := lineAt span.start source
  let number := decimal line.number
  let margin := spaces number.length
  let bar := style.frame "|"
  let location := match path with
    | none => []
    | some path =>
      [margin ++ style.frame "--> " ++ path ++ ":" ++ number ++ ":" ++
        decimal (line.column span.start)]
  let shown := String.ofList line.shown
  let text := style.frame number ++ " " ++ bar ++ if shown.isEmpty then "" else " " ++ shown
  let indent := displayWidth (line.before span.start)
  let width := max 1 (displayWidth (line.before span.stop) - indent)
  let carets := margin ++ " " ++ bar ++ " " ++ spaces indent ++
    style.alert (String.ofList (List.replicate width '^'))
  location ++ [margin ++ " " ++ bar, text, carets]

namespace Error

/-- An error in one line. -/
def line (e : Error) : String :=
  "error: " ++ e.message

/-- An error with the line of the source that it is about. There is none for a source that was
refused for its length. -/
def report (style : Style) (path : Option String) (source : String) (e : Error) : String :=
  match e with
  | tooLong _ _ => e.line
  | lexical _ | syntactic _ _ | tooDeep _ =>
    let title := style.alert "error" ++ style.bold ++ ": " ++ e.description ++ style.reset
    let text := source.toList
    "\n".intercalate (title :: excerptLines style path text (e.span.visible text))

end Error

end GraphQLSyntax
