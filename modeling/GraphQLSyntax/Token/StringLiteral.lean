import GraphQLSyntax.Text.BlockString
import GraphQLSyntax.Text.Bytes
import GraphQLSyntax.Token.Fault

/-!
# String literals

A string stands between double quotes on one line, with escapes. A block string stands between
triples of quotes; there a backslash is only special in front of such a triple.

A backslash and the characters behind it stand for one character. A Unicode escape names it by its
code point in braces, by four hexadecimal digits, or by two such escapes that form a surrogate
pair. Behind a backslash, every other character but five stands for itself.

* `readEscape_lt`: an escape takes at least one character.
-/

namespace GraphQLSyntax

/-! ## Escapes -/

/-- The character with this code point, if there is one: surrogates and numbers above U+10FFFF are
none. -/
def scalar? (n : Nat) : Option Char :=
  if n.isValidChar then some (Char.ofNat n) else none

def isHighSurrogate (unit : Nat) : Bool :=
  0xD800 ≤ unit && unit < 0xDC00

def isLowSurrogate (unit : Nat) : Bool :=
  0xDC00 ≤ unit && unit < 0xE000

/-- Four hexadecimal digits at the front of a text. -/
def codeUnit? : List Char → Option (Nat × List Char)
  | a :: b :: c :: d :: cs =>
    if [a, b, c, d].all isHexDigit then some (ofHexDigits [a, b, c, d], cs) else none
  | _ => none

/-- The low half of a surrogate pair, written as an escape of its own. -/
def lowSurrogate? : List Char → Option (Nat × List Char)
  | '\\' :: 'u' :: cs => (codeUnit? cs).filter (isLowSurrogate ·.1)
  | _ => none

/-- A code point in braces, behind the opening one. -/
def readBraced (cs : List Char) : Except LexFault (Char × List Char) :=
  let digits := cs.takeWhile isHexDigit
  match cs.dropWhile isHexDigit with
  | [] => .error .unterminatedUnicodeEscape
  | c :: cs =>
    let scalar := if digits ≠ [] ∧ digits.length ≤ 6 then scalar? (ofHexDigits digits) else none
    match scalar with
    | some x => if c = '\x7d' then .ok (x, cs) else invalid digits c
    | none => invalid digits c
where
  invalid (digits : List Char) (c : Char) :=
    .error (.invalidUnicodeEscape (['\\', 'u', '\x7b'] ++ digits ++ [c]))

/-- The code point of a surrogate pair. -/
def pairedSurrogates (high low : Nat) : Nat :=
  0x10000 + (high - 0xD800) * 0x400 + (low - 0xDC00)

/-- The character that a code unit at the front of a text stands for, together with a second one if
the first is a high surrogate. -/
def codeUnits? (cs : List Char) : Option (Char × List Char) :=
  match codeUnit? cs with
  | none => none
  | some (unit, cs) =>
    if isHighSurrogate unit then
      match lowSurrogate? cs with
      | none => none
      | some (low, cs) => (scalar? (pairedSurrogates unit low)).map (·, cs)
    else
      (scalar? unit).map (·, cs)

/-- A Unicode escape without braces, behind the letter that begins it. Nothing is read unless four
bytes are left. -/
def readFixed (cs : List Char) : Except LexFault (Char × List Char) :=
  if byteLength (cs.take 4) < 4 then
    .error .unterminatedUnicodeEscape
  else
    match codeUnits? cs with
    | some result => .ok result
    | none => .error (.invalidUnicodeEscape (('\\' :: 'u' :: cs).take 6))

/-- A Unicode escape, behind the letter that begins it. -/
def readUnicode : List Char → Except LexFault (Char × List Char)
  | '\x7b' :: cs => readBraced cs
  | cs => readFixed cs

/-- What a character behind a backslash stands for. -/
def unescaped : Char → Char
  | 'b' => '\x08'
  | 'f' => '\x0c'
  | 'n' => '\n'
  | 'r' => '\r'
  | 't' => '\t'
  | c => c

/-- An escape, behind its backslash. Faults of a Unicode escape are noticed at the backslash. -/
def readEscape (cs : List Char) : Reading Char :=
  match cs with
  | [] => .error ⟨.unterminatedString, []⟩
  | 'u' :: rest =>
    match readUnicode rest with
    | .ok result => .ok result
    | .error fault => .error ⟨fault, '\\' :: cs⟩
  | c :: rest => .ok (unescaped c, rest)

/-! ## Progress -/

theorem codeUnit?_lt {cs rest : List Char} {unit : Nat} (h : codeUnit? cs = some (unit, rest)) :
    rest.length < cs.length := by
  unfold codeUnit? at h
  split at h <;> grind

theorem lowSurrogate?_lt {cs rest : List Char} {unit : Nat}
    (h : lowSurrogate? cs = some (unit, rest)) : rest.length < cs.length := by
  unfold lowSurrogate? at h
  split at h
  · have := codeUnit?_lt (Option.filter_eq_some_iff.mp h).1
    grind
  · simp at h

theorem readBraced_lt {cs rest : List Char} {c : Char} (h : readBraced cs = .ok (c, rest)) :
    rest.length < cs.length := by
  have := (List.dropWhile_sublist isHexDigit (l := cs)).length_le
  unfold readBraced at h
  grind [readBraced.invalid]

theorem codeUnits?_lt {cs rest : List Char} {c : Char} (h : codeUnits? cs = some (c, rest)) :
    rest.length < cs.length := by
  unfold codeUnits? at h
  split at h
  · contradiction
  · next unit tail hu =>
    have := codeUnit?_lt hu
    split at h
    · split at h
      · contradiction
      · next hl =>
        have := lowSurrogate?_lt hl
        obtain ⟨_, -, h⟩ := Option.map_eq_some_iff.mp h
        cases h
        omega
    · obtain ⟨_, -, h⟩ := Option.map_eq_some_iff.mp h
      cases h
      exact this

theorem readFixed_lt {cs rest : List Char} {c : Char} (h : readFixed cs = .ok (c, rest)) :
    rest.length < cs.length := by
  have := @codeUnits?_lt
  unfold readFixed at h
  grind

theorem readUnicode_lt {cs rest : List Char} {c : Char} (h : readUnicode cs = .ok (c, rest)) :
    rest.length < cs.length := by
  unfold readUnicode at h
  split at h
  · exact Nat.lt_succ_of_lt (readBraced_lt h)
  · exact readFixed_lt h

/-- An escape takes at least one character. -/
theorem readEscape_lt {cs rest : List Char} {c : Char} (h : readEscape cs = .ok (c, rest)) :
    rest.length < cs.length := by
  unfold readEscape at h
  split at h
  · simp at h
  · split at h
    · next hu =>
      obtain rfl := Except.ok.inj h
      exact Nat.lt_succ_of_lt (readUnicode_lt hu)
    · simp at h
  · simp at h; simp [h]

/-! ## Strings -/

/-- The rest of a string behind its opening quote: the value and the text behind the closing
quote. -/
def readString (cs : List Char) : Reading (List Char) :=
  match cs with
  | [] => .error ⟨.unterminatedString, []⟩
  | '"' :: rest => .ok ([], rest)
  | '\\' :: rest =>
    match h : readEscape rest with
    | .error fault => .error fault
    | .ok (c, rest) =>
      have := readEscape_lt h
      (readString rest).map fun (value, rest) => (c :: value, rest)
  | c :: rest =>
    if c = '\n' ∨ c = '\r' then
      .error ⟨.newlineInString, cs⟩
    else
      (readString rest).map fun (value, rest) => (c :: value, rest)
termination_by cs.length

/-- The rest of a block string behind its opening quotes: the raw content and the text behind the
closing quotes. -/
def readBlockString : List Char → Reading (List Char)
  | [] => .error ⟨.unterminatedBlockString, []⟩
  | '"' :: '"' :: '"' :: rest => .ok ([], rest)
  | '\\' :: '"' :: '"' :: '"' :: rest =>
    (readBlockString rest).map fun (raw, rest) => ('"' :: '"' :: '"' :: raw, rest)
  | c :: rest => (readBlockString rest).map fun (raw, rest) => (c :: raw, rest)

end GraphQLSyntax
