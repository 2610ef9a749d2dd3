import GraphQLSyntax.Field
import GraphQLSyntax.Proofs.Predictive.Document
import GraphQLSyntax.Proofs.Steps.Repetition
import GraphQLSyntax.Proofs.WellFormed.Tokens

/-!
# Types, values and directives, stepwise

Lists and objects nest, so their programs are built for one token of the text after the other: on
each level there is one token less, the opening delimiter.
-/

namespace GraphQLSyntax

open GraphQLSyntax.Parser (Predictive below)

variable {m : ValueMode} {n : Nat}

/-! ## Types -/

namespace TypeRef

def written (t : TypeRef) : Written where
  tokens := t.tokens
  depth := t.depth

private def stepwiseOf (X : Stepwise n (fun room => Parser.expect .bracketOpen >>= fun _ =>
      Parser.nested (below parse room) fun item =>
        item >>= fun type => (fun _ => list type) <$> Parser.expect .bracketClose)
      (Exactly written)) :
    Stepwise n parse (Exactly written) :=
  let nullable : Stepwise n parseNullable (Exactly written) :=
    (Stepwise.lookIf (· = some (punct .bracketOpen)) X ((Stepwise.name.map named).mono (by
      rintro _ _ ⟨text, rfl, rfl⟩
      rfl))).congr fun room ts _ => by
      rw [parseNullable_run]
      split
      · next h => rw [Parser.bind_run, Stepwise.expect_run, if_pos h]
      · rfl
  ((nullable.bind fun type => Stepwise.ifEat (punct .bang) (.pure (nonNull type))
    (.pure type)).mono (by
      rintro _ _ ⟨type, _, _, rfl, ⟨_, ⟨rfl, rfl⟩, rfl⟩ | ⟨rfl, rfl⟩, rfl⟩
      · ext1 <;> simp [written, tokens, depth]
      · simp)).congr fun room ts _ => by
    rw [parse_eq]
    rfl

def stepwise : (n : Nat) → Stepwise n parse (Exactly written)
  | 0 => stepwiseOf (Stepwise.nestedZero .square)
  | n + 1 => stepwiseOf ((Stepwise.nested .square parse _ ((stepwise n).bind fun type =>
      (Stepwise.expect .bracketClose).map fun _ => list type)).mono (by
      rintro _ _ ⟨_, ⟨type, _, _, rfl, ⟨_, rfl, rfl⟩, rfl⟩, rfl⟩
      ext1 <;> simp [written, tokens, depth, Bracket.opening]))

end TypeRef

/-! ## Values -/

namespace Value

def written (value : Value m) : Written where
  tokens := value.tokens
  depth := value.depth

def entryWritten (entry : String × Value m) : Written where
  tokens := tokensOfEntry entry
  depth := entry.2.depth

def stepwiseEntry {value : Nat → Parser (Value m)} (X : Stepwise n value (Exactly written)) :
    Stepwise n (fun room => parseEntry (value room)) (Exactly entryWritten) :=
  (Stepwise.name.bind fun key => (Stepwise.expect .colon).bind fun _ =>
    X.bind fun value => .pure (key, value)).mono (by
    rintro _ _ ⟨key, _, _, rfl, ⟨_, _, _, rfl, ⟨value, _, _, rfl, ⟨rfl, rfl⟩, rfl⟩, rfl⟩, rfl⟩
    ext1 <;> simp [entryWritten, tokensOfEntry, written])

/-! ### Lists and objects -/

theorem written_list (items : List (Value m)) :
    (list items).written = (Stepwise.closed .bracketClose written items).within .square := by
  ext1
  · simp [written, tokens, itemTokens_eq, Stepwise.closed, Bracket.opening, List.flatMap_map]
  · simp [written, depth, itemsDepth_eq, Stepwise.closed]

theorem written_object (entries : List (String × Value m)) :
    (object entries).written =
      (Stepwise.closed .braceClose entryWritten entries).within .curly := by
  ext1
  · simp [written, tokens, entryTokens_eq, Stepwise.closed, Bracket.opening, List.flatMap_map,
      entryWritten]
  · simp [written, depth, entriesDepth_eq, Stepwise.closed, entryWritten]

/-- The list value whose opening bracket comes next. -/
private def parseList (room : Nat) : Parser (Value m) :=
  Parser.expect .bracketOpen >>= fun _ =>
    Parser.nested (below (parse m) room) fun value =>
      list <$> Parser.delimited .bracketClose value

/-- The entries of the object whose opening brace comes next. -/
private def parseEntries (room : Nat) : Parser (List (String × Value m)) :=
  Parser.expect .braceOpen >>= fun _ =>
    Parser.nested (below (parse m) room) fun value =>
      Parser.delimited .braceClose (parseEntry value)

private theorem ofPairs_parseEntries (room : Nat) (ts : List TokenKind) :
    (ofPairs <$> parseEntries (m := m) room) (punct .braceOpen :: ts) =
      parse m room (punct .braceOpen :: ts) := by
  rw [parse_braceOpen]
  cases room <;> rfl

/-- An object is read as its entries, of which a repeated key leaves one. -/
private def stepwiseObject
    (X : Stepwise n (parseEntries (m := m)) fun entries w =>
      w = (Stepwise.closed .braceClose entryWritten entries).within .curly) :
    Stepwise n (fun room => ofPairs <$> parseEntries (m := m) room) (Exactly written) :=
  X.merge ofPairs (fun entries => .object (entries.map Prod.fst)) (by
    rintro entries _ rfl
    refine ⟨_, rfl, ?_, ?_, ?_, ?_⟩
    · have hle := Entries.length_flatMap_ofPairs_le tokensOfEntry entries
      rw [ofPairs, written_object]
      simpa only [Stepwise.closed, Written.tokens_within, Written.tokens_append,
        Written.tokens_concat, List.flatMap_map, entryWritten, List.length_cons, List.length_append,
        Nat.add_le_add_iff_right] using hle
    · rw [ofPairs, written_object]
      rfl
    · intro hkeys
      rw [ofPairs, Entries.ofPairs_of_nodup hkeys, written_object]
    · intro hkeys
      exact Nat.le_of_eq
        (by rw [ofPairs, Entries.ofPairs_of_nodup (hkeys _ rfl), written_object]))

/-- A reference to a variable, where one is admitted. -/
private def stepwiseDollar {q : Nat → Parser (Value m)} (Y : Stepwise n q (Exactly written)) :
    Stepwise n (fun room ts => if ts.head? = some (punct .dollar) then parseVarRef ts else q room ts)
      (Exactly written) :=
  match m with
  | .dynamic => ((Stepwise.ifNext (punct .dollar) (Stepwise.name.map fun name => varRef name rfl) Y
      (Nat.le_succ n)).mono (by
      rintro _ _ (⟨_, ⟨name, rfl, rfl⟩, rfl⟩ | rfl)
      · rfl
      · rfl)).congr fun room ts _ => by
      rw [Parser.map_eq_bind]
      rfl
  | .const => Stepwise.lookIf (· = some (punct .dollar)) (Stepwise.refuse .variableInConst) Y

theorem written_of_token {t : TokenKind} {value : Value m} (h : ofToken? t = some value) :
    value.written = .token t := by
  rcases t with _ | text | _ | _ | _
  case name =>
    cases h
    unfold ofName
    split
    · next htext => rw [htext]; rfl
    split
    · next htext => rw [htext]; rfl
    split
    · next htext => rw [htext]; rfl
    · rfl
  all_goals
    cases h
    try rfl

private def stepwiseOf (X : Stepwise n (parseList (m := m)) (Exactly written))
    (Y : Stepwise n (parseEntries (m := m)) fun entries w =>
      w = (Stepwise.closed .braceClose entryWritten entries).within .curly) :
    Stepwise n (parse m) (Exactly written) :=
  (Stepwise.lookIf (· = some (punct .bracketOpen)) X
    (Stepwise.lookIf (· = some (punct .braceOpen)) (stepwiseObject Y)
      (stepwiseDollar ((Stepwise.branch ofToken? (fun value => Stepwise.pure value)
        (Stepwise.refuse (R := fun _ _ => False) .expectedValue) (Nat.le_succ n)).mono (by
        rintro value _ (⟨t, _, _, ht, ⟨rfl, rfl⟩, rfl⟩ | ⟨⟨⟩⟩)
        rw [Exactly, written_of_token ht, Written.append_empty]))))).congr fun room ts _ => by
    rcases ts with _ | ⟨p | _ | _ | _ | _, ts⟩
    case cons.punctuator =>
      cases p
      case bracketOpen => rw [parse_bracketOpen]; rfl
      case braceOpen => rw [← ofPairs_parseEntries]; rfl
      case dollar => rw [parse_eq]; rfl
      all_goals rw [parse_eq]; rfl
    all_goals rw [parse_eq]; rfl

def stepwise (m : ValueMode) : (n : Nat) → Stepwise n (parse m) (Exactly written)
  | 0 => stepwiseOf (Stepwise.nestedZero .square) (Stepwise.nestedZero .curly)
  | n + 1 => stepwiseOf
      ((Stepwise.nested .square (parse m) (fun value => list <$> Parser.delimited .bracketClose value)
        ((Stepwise.delimited .bracketClose (stepwise m n) takes_parse (Nat.le_refl n)).map
          list)).mono (by
        rintro _ _ ⟨_, ⟨items, rfl, rfl⟩, rfl⟩
        exact (written_list items).symm))
      ((Stepwise.nested .curly (parse m)
        (fun value => Parser.delimited .braceClose (parseEntry value))
        (Stepwise.delimited .braceClose (stepwiseEntry (stepwise m n))
          (fun room => takes_parseEntry ((takes_parse room).mono (Nat.zero_le 1)))
          (Nat.le_refl n))).mono (by
        rintro entries _ ⟨_, rfl, rfl⟩
        rfl))

def defaultWritten (default : Option (Value .const)) : Written where
  tokens := defaultTokens default
  depth := defaultDepth default

def stepwiseDefault (n : Nat) : Stepwise n parseDefault (Exactly defaultWritten) :=
  (Stepwise.ifEat (punct .equals) ((stepwise .const n).map some) (.pure none)).mono (by
    rintro _ _ (⟨_, ⟨value, rfl, rfl⟩, rfl⟩ | ⟨rfl, rfl⟩)
    · ext1 <;> simp [defaultWritten, defaultTokens, defaultDepth, written]
    · rfl)

end Value

/-! ## Arguments and directives -/

namespace Argument

def written (a : Argument m) : Written where
  tokens := a.tokens
  depth := a.depth

def allWritten (arguments : List (Argument m)) : Written where
  tokens := allTokens arguments
  depth := listDepth depth arguments

def stepwise (m : ValueMode) (n : Nat) : Stepwise n (parse m) (Exactly written) :=
  ((Value.stepwiseEntry (Value.stepwise m n)).bind fun entry =>
    .pure (⟨entry.1, entry.2⟩ : Argument m)).mono (by
    rintro _ _ ⟨entry, _, _, rfl, ⟨rfl, rfl⟩, rfl⟩
    exact Written.append_empty _)

def stepwiseAll (m : ValueMode) (n : Nat) : Stepwise n (parseAll m) (Exactly allWritten) :=
  (Stepwise.optionalList .arguments .parenOpen .parenClose (stepwise m n)
    takes_parse).mono (by
    rintro arguments _ rfl
    exact Written.enclosed_map ..)

end Argument

namespace Directive

def allWritten (directives : List (Directive m)) : Written where
  tokens := allTokens directives
  depth := listDepth depth directives

/-- A directive without its sign. -/
private def unsigned (d : Directive m) : Written :=
  .token (.name d.name) ++ Argument.allWritten d.arguments

private theorem behind_unsigned (directives : List (Directive m)) :
    Stepwise.behind .atSign unsigned directives = allWritten directives := by
  induction directives with
  | nil => rfl
  | cons d directives ih =>
    have hcons : Stepwise.behind .atSign unsigned (d :: directives) =
        .token (punct .atSign) ++ unsigned d ++ Stepwise.behind .atSign unsigned directives := rfl
    rw [hcons, ih]
    ext1
    · simp [unsigned, allWritten, allTokens, tokens, Argument.allWritten]
    · simp [unsigned, allWritten, depth, Argument.allWritten]

private def stepwise (m : ValueMode) (n : Nat) : Stepwise n (parse m) (Exactly unsigned) :=
  (Stepwise.name.bind fun name => (Argument.stepwiseAll m n).bind fun arguments =>
    .pure (⟨name, arguments⟩ : Directive m)).mono (by
    rintro _ _ ⟨name, _, _, rfl, ⟨arguments, _, _, rfl, ⟨rfl, rfl⟩, rfl⟩, rfl⟩
    simp [Exactly, unsigned])

def stepwiseAll (m : ValueMode) (n : Nat) : Stepwise n (parseAll m) (Exactly allWritten) :=
  (Stepwise.each .atSign (stepwise m n)
    (fun room => (takes_parse room).mono (Nat.zero_le 1)) (Nat.le_refl n)).mono (by
    rintro directives _ rfl
    exact behind_unsigned directives)

end Directive

/-! ## Definitions of inputs -/

namespace InputValueDefinition

def written (d : InputValueDefinition) : Written where
  tokens := d.tokens
  depth := d.depth

def argumentsWritten (arguments : List InputValueDefinition) : Written where
  tokens := argumentTokens arguments
  depth := listDepth depth arguments

def stepwise (n : Nat) : Stepwise n parse (Exactly written) :=
  (Stepwise.string?.bind fun description => Stepwise.name.bind fun name =>
    (Stepwise.expect .colon).bind fun _ => (TypeRef.stepwise n).bind fun type =>
    (Value.stepwiseDefault n).bind fun default =>
    (Directive.stepwiseAll .const n).bind fun directives =>
    .pure (⟨description, name, type, default, directives⟩ : InputValueDefinition)).mono (by
    rintro _ _ ⟨description, _, _, rfl, ⟨name, _, _, rfl, ⟨_, _, _, rfl, ⟨type, _, _, rfl, ⟨default,
      _, _, rfl, ⟨directives, _, _, rfl, ⟨rfl, rfl⟩, rfl⟩, rfl⟩, rfl⟩, rfl⟩, rfl⟩, rfl⟩
    ext1
    · simp [written, tokens, TypeRef.written, Value.defaultWritten, Directive.allWritten]
    · simp [written, depth, TypeRef.written, Value.defaultWritten, Directive.allWritten])

def stepwiseArguments (n : Nat) : Stepwise n parseArguments (Exactly argumentsWritten) :=
  (Stepwise.optionalList .argumentDefinitions .parenOpen .parenClose (stepwise n)
    takes_parse).mono (by
    rintro arguments _ rfl
    exact Written.enclosed_map ..)

end InputValueDefinition

end GraphQLSyntax
