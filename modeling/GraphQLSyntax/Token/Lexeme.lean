import GraphQLSyntax.Token.Number
import GraphQLSyntax.Token.StringLiteral

/-!
# Lexemes

A lexeme begins with a character that is not skipped, and that character decides what it is. The
outcome depends on the text from there on alone. Where a lexeme is malformed, the text for the next
one begins behind the characters that decided what this one was.

* `Readable`: there is a text that each of these tokens can be read from. Names are made of name
  characters, and floating-point numbers are numbers.
-/

namespace GraphQLSyntax

/-! ## What is skipped -/

/-- Spaces, tabs, line ends, commas and byte order marks separate lexemes and mean nothing. -/
def isBlank (c : Char) : Bool :=
  c == ' ' || c == '\t' || c == '\r' || c == '\n' || c == ',' || c == '\ufeff'

def isLineEnd (c : Char) : Bool :=
  c == '\n' || c == '\r'

/-- Whether a run of skipped text is in a comment when it goes on. -/
inductive Skipping
  | blanks
  | comment
deriving DecidableEq, Repr

/-- The text behind blanks and comments. A comment goes from a number sign to the end of its
line. -/
def skipIgnored : Skipping → List Char → List Char
  | _, [] => []
  | .comment, c :: cs => skipIgnored (if isLineEnd c then .blanks else .comment) cs
  | .blanks, c :: cs =>
    if c = '#' then skipIgnored .comment cs
    else if isBlank c then skipIgnored .blanks cs
    else c :: cs

/-! ## Names -/

def isNameStart (c : Char) : Bool :=
  c.isAlpha || c == '_'

def isNameChar (c : Char) : Bool :=
  c.isAlphanum || c == '_'

/-! ## Lexemes -/

/-- The outcome of a lexeme and the text for the next one. -/
structure Lexeme where
  outcome : Except LexFaultAt TokenKind
  rest : List Char

namespace Lexeme

/-- A lexeme that was read, or a malformed one that leaves `resume`. -/
def ofReading (reading : Reading TokenKind) (resume : List Char) : Lexeme :=
  match reading with
  | .ok (kind, rest) => ⟨.ok kind, rest⟩
  | .error fault => ⟨.error fault, resume⟩

/-- A spread, behind its first point. -/
def spread : List Char → Lexeme
  | '.' :: '.' :: cs => ⟨.ok (.punctuator .spread), cs⟩
  | cs => ⟨.error ⟨.unfinishedSpread, '.' :: cs⟩, cs⟩

/-- A name that begins with `c`. -/
def name (c : Char) (cs : List Char) : Lexeme where
  outcome := .ok (.name (String.ofList (c :: cs.takeWhile isNameChar)))
  rest := cs.dropWhile isNameChar

/-- A number that begins with `c`. An integer that does not fit is a fault of the whole number. -/
def number (c : Char) (cs : List Char) : Lexeme :=
  match NumberLiteral.read (c :: cs) with
  | .error fault => ⟨.error fault, cs⟩
  | .ok (literal, rest) =>
    match literal.kind? with
    | some kind => ⟨.ok kind, rest⟩
    | none => ⟨.error ⟨.integerOutOfRange, c :: cs⟩, rest⟩

/-- A string or a block string, behind its first quote. -/
def string : List Char → Lexeme
  | '"' :: '"' :: body =>
    ofReading ((readBlockString body).map fun (raw, rest) =>
      (.string (String.ofList (dedent raw)), rest)) body
  | body =>
    ofReading ((readString body).map fun (value, rest) => (.string (String.ofList value), rest)) body

end Lexeme

/-- The lexeme that begins with `c`. -/
def lexeme (c : Char) (cs : List Char) : Lexeme :=
  match Punctuator.ofChar? c with
  | some p => ⟨.ok (.punctuator p), cs⟩
  | none =>
    if c = '.' then .spread cs
    else if isNameStart c then .name c cs
    else if c = '-' ∨ c.isDigit then .number c cs
    else if c = '"' then .string cs
    else ⟨.error ⟨.unexpectedSymbol c, c :: cs⟩, cs⟩

/-! ## Readable tokens -/

/-- A letter or an underscore, and then letters, digits and underscores. -/
def isName (s : String) : Bool :=
  match s.toList with
  | [] => false
  | c :: cs => isNameStart c && cs.all isNameChar

def TokenKind.isReadable : TokenKind → Bool
  | name text => isName text
  | float value => !value.isNaN
  | punctuator _ | int _ | string _ => true

/-- All tokens are readable. -/
def Readable (ts : List TokenKind) : Prop :=
  ∀ t ∈ ts, t.isReadable = true

@[simp] theorem readable_nil : Readable [] := by
  simp [Readable]

@[simp] theorem readable_cons {t : TokenKind} {ts : List TokenKind} :
    Readable (t :: ts) ↔ t.isReadable = true ∧ Readable ts := by
  simp [Readable]

@[simp] theorem readable_append {ts us : List TokenKind} :
    Readable (ts ++ us) ↔ Readable ts ∧ Readable us := by
  exact List.forall_mem_append

end GraphQLSyntax
