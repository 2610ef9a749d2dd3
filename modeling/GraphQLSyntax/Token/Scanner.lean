import GraphQLSyntax.Text.Bytes
import GraphQLSyntax.Token.Lexeme

/-!
# Scanning

A `Scanner` is a source and the part of it that is still ahead. Each `scan` gives the next token
or the fault of the next lexeme, and goes on behind it. At the end of the source it gives the end
token, again and again.

`run` reads up to the end or the first fault, `pull` the same but at most a given number of items.
With `n` characters ahead there are at most `n` tokens in front of the end, so `n + 1` items are
enough for either.
-/

namespace GraphQLSyntax

/-- A source and what of it is still ahead. -/
structure Scanner where
  source : String
  ahead : List Char

namespace Scanner

/-- A scanner at the start of a source. -/
def ofSource (source : String) : Scanner where
  source := source
  ahead := source.toList

/-- Goes back to the start of the source. -/
def reset (s : Scanner) : Scanner :=
  ofSource s.source

/-- The byte offset of the place that has `ahead` in front of it. -/
def offsetOf (s : Scanner) (ahead : List Char) : Nat :=
  s.source.utf8ByteSize - byteLength ahead

/-- The byte offset of the scanner. -/
def offset (s : Scanner) : Nat :=
  s.offsetOf s.ahead

/-- The token at the end of the source. -/
def endToken (s : Scanner) : Token where
  kind := none
  start := s.source.utf8ByteSize
  stop := s.source.utf8ByteSize

/-- The next token, or the fault of the next lexeme, and the scanner behind it. -/
def scan (s : Scanner) : Except LexError Token × Scanner :=
  match skipIgnored .blanks s.ahead with
  | [] => (.ok s.endToken, { s with ahead := [] })
  | c :: cs =>
    let l := lexeme c cs
    let item := match l.outcome with
      | .ok kind => .ok ⟨some kind, s.offsetOf (c :: cs), s.offsetOf l.rest⟩
      | .error stuck => .error ⟨stuck.fault, s.offsetOf stuck.ahead⟩
    (item, { s with ahead := l.rest })

/-! ## Runs -/

/-- Whether nothing follows the item: it is the end token or a fault. -/
def isLast : Except LexError Token → Bool
  | .ok token => token.isEnd
  | .error _ => true

/-- At most `n` items, up to the end token or the first fault. -/
def pull : Nat → Scanner → List (Except LexError Token) × Scanner
  | 0, s => ([], s)
  | n + 1, s =>
    let (item, s) := s.scan
    if isLast item then
      ([item], s)
    else
      let (items, s) := pull n s
      (item :: items, s)

/-- A bound on the items that a scanner gives before it stops. -/
def bound (s : Scanner) : Nat :=
  s.ahead.length + 1

/-- The items up to the end token or the first fault. -/
def tokens (s : Scanner) : List (Except LexError Token) × Scanner :=
  s.pull s.bound

/-- The tokens of a run, and what it ended with: the end token or a fault. -/
structure Run where
  tokens : List Token
  last : Except LexError Token

/-- A run of at most `n` tokens in front of the end or the first fault. -/
def runFor : Nat → Scanner → Run × Scanner
  | 0, s => (⟨[], .ok s.endToken⟩, s)
  | n + 1, s =>
    match s.scan with
    | (.error e, s) => (⟨[], .error e⟩, s)
    | (.ok token, s) =>
      if token.isEnd then
        (⟨[], .ok token⟩, s)
      else
        let (run, s) := runFor n s
        (⟨token :: run.tokens, run.last⟩, s)

/-- The tokens up to the end or the first fault. -/
def run (s : Scanner) : Run × Scanner :=
  s.runFor s.bound

/-- All tokens up to the end token, or the first fault. -/
def remaining (s : Scanner) : Except LexError (List Token) × Scanner :=
  let (run, s) := s.run
  (run.last.map fun token => run.tokens ++ [token], s)

end Scanner

/-- The tokens of a source with the end token, or its first lexical fault. -/
def lex (source : String) : Except LexError (List Token) :=
  (Scanner.ofSource source).remaining.1

end GraphQLSyntax
