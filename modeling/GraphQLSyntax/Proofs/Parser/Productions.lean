import GraphQLSyntax.Definition
import GraphQLSyntax.Proofs.Parser.Run

/-!
# Productions as sequences of parts

The productions that choose by the next token or nest, restated by what they read in each case.
Where one part of a production is optional, it is named here, so that the production is a plain
sequence of its parts.
-/

namespace GraphQLSyntax

open GraphQLSyntax.Parser

variable {m : ValueMode} {room : Nat}

/-! ## Types -/

namespace TypeRef

/-- A type without the bang that may follow. -/
def parseNullable (room : Nat) : Parser TypeRef := do
  if ← eatPunctuator .bracketOpen then
    nested (below parse room) fun item =>
      item >>= fun type => (fun _ => list type) <$> expect .bracketClose
  else
    named <$> name

theorem parse_eq (room : Nat) : parse room = (do
    let type ← parseNullable room
    if ← eatPunctuator .bang then
      return nonNull type
    else
      return type) := by
  have hone : parse room = parseOne (below parse room) := by
    cases room <;> rfl
  rw [hone]
  funext ts
  unfold parseOne parseNullable
  simp only [bind_run, eatPunctuator, eat_run, map_eq_bind]
  by_cases h : ts.head? = some (punct .bracketOpen) <;>
    simp only [h, if_true, if_false, Bool.false_eq_true, bind_run, eat_run]

theorem parseNullable_run (room : Nat) (ts : List TokenKind) :
    parseNullable room ts =
      if ts.head? = some (punct .bracketOpen) then
        nested (below parse room) (fun item =>
          item >>= fun type => (fun _ => list type) <$> expect .bracketClose) ts.tail
      else (named <$> name) ts := by
  unfold parseNullable
  rw [eatPunctuator, eat_bind_run]
  simp only [if_true, Bool.false_eq_true, if_false]

end TypeRef

/-! ## Values -/

namespace Value

/-- Tokens with which a value can begin. -/
def Begins (m : ValueMode) (t : TokenKind) : Prop :=
  t = punct .bracketOpen ∨ t = punct .braceOpen ∨ (t = punct .dollar ∧ m = .dynamic) ∨
    ∃ value, ofToken? (m := m) t = some value

theorem parse_eq (room : Nat) : parse m room = parseOne (below (parse m) room) := by
  cases room <;> rfl

theorem parse_bracketOpen (room : Nat) (ts : List TokenKind) :
    parse m room (punct .bracketOpen :: ts) =
      nested (below (parse m) room) (fun value => list <$> delimited .bracketClose value) ts := by
  rw [parse_eq]
  rfl

theorem parse_braceOpen (room : Nat) (ts : List TokenKind) :
    parse m room (punct .braceOpen :: ts) =
      nested (below (parse m) room)
        (fun value => ofPairs <$> delimited .braceClose (parseEntry value)) ts := by
  rw [parse_eq]
  rfl

theorem parse_dollar (room : Nat) (ts : List TokenKind) :
    parse .dynamic room (punct .dollar :: ts) = ((fun name => varRef name rfl) <$> name) ts := by
  rw [parse_eq, map_eq_bind]
  rfl

theorem parse_of_token {t : TokenKind} {value : Value m} (h : ofToken? t = some value)
    (room : Nat) (ts : List TokenKind) : parse m room (t :: ts) = .ok (value, ts) := by
  rw [parse_eq]
  cases t with
  | punctuator p => cases h
  | _ => cases h; rfl

theorem parse_of_not_begins {ts : List TokenKind} (h : ∀ t, ts.head? = some t → ¬ Begins m t)
    (room : Nat) :
    parse m room ts = .error ⟨.fault (if ts.head? = some (punct .dollar) then .variableInConst
      else .expectedValue), ts⟩ := by
  rw [parse_eq]
  rcases ts with _ | ⟨p | _ | _ | _ | _, ts⟩
  case cons.punctuator =>
    have hp := h _ rfl
    cases p
    case bracketOpen => exact (hp (.inl rfl)).elim
    case braceOpen => exact (hp (.inr (.inl rfl))).elim
    case dollar =>
      cases m with
      | const => rfl
      | dynamic => exact (hp (.inr (.inr (.inl ⟨rfl, rfl⟩)))).elim
    all_goals rfl
  case nil => rfl
  all_goals exact (h _ rfl (.inr (.inr (.inr ⟨_, rfl⟩)))).elim

/-! ### Progress -/

theorem takes_parseEntry {value : Parser (Value m)} (h : Takes 0 value) :
    Takes 1 (parseEntry value) :=
  takes_name.bind (n := 0) fun key => ((takes_expect .colon).bind (n := 0) fun _ =>
    h.bind fun value => takes_pure (key, value)).mono (by omega)

private theorem takes_step (ih : ∀ r, room = r + 1 → Takes 1 (parse m r)) :
    Takes 1 (parse m room) := by
  intro ts x rest h
  rcases ts with _ | ⟨t, ts⟩
  · rw [parse_of_not_begins (by simp)] at h
    cases h
  by_cases ht : Begins m t
  · suffices hle : rest.length ≤ ts.length from Nat.succ_le_succ hle
    rcases ht with rfl | rfl | ⟨rfl, rfl⟩ | ⟨value, ht⟩
    · rw [parse_bracketOpen] at h
      refine takes_nested_below (p := parse m) (n := 0)
        (f := fun value => list <$> delimited .bracketClose value) (fun r hr => ?_) _ _ _ h
      exact (takes_delimited _ ((ih r hr).mono (by omega))).map list
    · rw [parse_braceOpen] at h
      refine takes_nested_below (p := parse m) (n := 0)
        (f := fun value => ofPairs <$> delimited .braceClose (parseEntry value))
        (fun r hr => ?_) _ _ _ h
      exact (takes_delimited _ ((takes_parseEntry ((ih r hr).mono (by omega))).mono
        (by omega))).map ofPairs
    · rw [parse_dollar] at h
      have := takes_name.map _ _ _ _ h
      omega
    · rw [parse_of_token ht] at h
      cases h
      exact Nat.le_refl _
  · rw [parse_of_not_begins (by simpa using ht)] at h
    cases h

theorem takes_parse (room : Nat) : Takes 1 (parse m room) := by
  induction room with
  | zero => exact takes_step (by simp)
  | succ room ih => exact takes_step fun r hr => by cases hr; exact ih

end Value

/-! ## Selections -/

namespace Selection

/-- The alias and the name of a field whose first name is `first`. -/
def parseAlias (first : String) : Parser (Option String × String) := do
  if ← eatPunctuator .colon then
    return (some first, ← name)
  else
    return (none, first)

/-- The selections of a field, none without a brace. -/
def parseOwn (set : Parser (List Selection)) : Parser (List Selection) := do
  if (← peek) = some (.punctuator .braceOpen) then
    set
  else
    return []

theorem parseAlias_run (first : String) (ts : List TokenKind) :
    parseAlias first ts =
      if ts.head? = some (punct .colon) then ((fun name => (some first, name)) <$> name) ts.tail
      else .ok ((none, first), ts) := by
  unfold parseAlias
  rw [eatPunctuator, eat_bind_run, map_eq_bind]
  rfl

theorem parseOwn_run (set : Parser (List Selection)) (ts : List TokenKind) :
    parseOwn set ts = if ts.head? = some (punct .braceOpen) then set ts else .ok ([], ts) := by
  unfold parseOwn
  rw [peek_bind_run]
  split <;> rfl

theorem parseField_eq (room : Nat) (set : Parser (List Selection)) :
    parseField room set = (do
      let first ← name
      let names ← parseAlias first
      let arguments ← Argument.parseAll .dynamic room
      let directives ← Directive.parseAll .dynamic room
      let selections ← parseOwn set
      return field names.1 names.2 arguments directives selections) := by
  have hown : ∀ f : List Selection → Parser Selection, (do
      let selections ← if (← peek) = some (.punctuator .braceOpen) then set else pure []
      f selections) = parseOwn set >>= f := by
    intro f
    unfold parseOwn
    rw [bind_assoc]
    refine congrArg (peek >>= ·) (funext fun next => ?_)
    split <;> rfl
  unfold parseField parseAlias
  refine congrArg (name >>= ·) (funext fun first => ?_)
  rw [bind_assoc]
  refine congrArg (eat _ >>= ·) (funext fun b => ?_)
  simp only [← hown]
  cases b <;> simp only [if_true, Bool.false_eq_true, if_false, bind_assoc, pure_bind]

theorem parseSpread_name (room : Nat) (set : Parser (List Selection)) {text : String}
    (h : text ≠ "on") (ts : List TokenKind) :
    parseSpread room set (.name text :: ts) =
      (spread text <$> Directive.parseAll .dynamic room) ts := by
  refine Eq.trans (b := ((if text = "on" then _ else _ : Parser Selection) ts)) rfl ?_
  rw [if_neg h, map_eq_bind]

theorem parseSpread_on (room : Nat) (set : Parser (List Selection)) (ts : List TokenKind) :
    parseSpread room set (.name "on" :: ts) = (do
      let condition ← name
      let directives ← Directive.parseAll .dynamic room
      return inline condition directives (← set) : Parser Selection) ts := rfl

theorem parseSpread_of_not_name {ts : List TokenKind} (h : ∀ text, ts.head? ≠ some (.name text))
    (room : Nat) (set : Parser (List Selection)) :
    parseSpread room set ts = .error ⟨.fault .expectedSpreadTarget, ts⟩ := by
  rcases ts with _ | ⟨_ | text | _ | _ | _, ts⟩
  case cons.name => exact (h text rfl).elim
  all_goals rfl

theorem parseOne_run (room : Nat) (set : Parser (List Selection)) (ts : List TokenKind) :
    parseOne room set ts =
      if ts.head? = some (punct .spread) then parseSpread room set ts.tail
      else parseField room set ts :=
  eat_bind_run ..

theorem parseSet_eq (room : Nat) :
    parseSet room = expect .braceOpen >>= fun _ =>
      nested (below (fun r => parseOne r (parseSet r)) room)
        (delimitedNonempty .selections .braceClose) := by
  cases room <;> rfl

end Selection

/-! ## Definitions -/

namespace FragmentDefinition

theorem parse_run (room : Nat) (t : TokenKind) (ts : List TokenKind) :
    parse room (t :: ts) =
      if ts.head? = some (.name "on") then .error ⟨.fault .expectedFragmentName, ts⟩
      else (do
        let name ← Parser.name
        expectKeyword "on"
        let condition ← Parser.name
        let directives ← Directive.parseAll .dynamic room
        let selections ← Selection.parseSet room
        return { name, condition, directives, selections } : Parser FragmentDefinition) ts := by
  unfold parse
  rw [skip_bind_run, List.tail_cons, peek_bind_run]
  split <;> rfl

end FragmentDefinition

namespace SchemaDefinition

theorem parseOperationType_eq :
    parseOperationType =
      lookedUp OperationType.ofName? .unknownOperationType .expectedOperationType := by
  funext ts
  unfold parseOperationType lookedUp
  rw [peek_bind_run]
  rcases ts with _ | ⟨_ | text | _ | _ | _, ts⟩
  case cons.name =>
    simp only [List.head?_cons]
    cases OperationType.ofName? text <;> rfl
  all_goals rfl

/-- What stands behind the keyword of a schema. -/
def parseParts (room : Nat) : Parser (List (Directive .const) × List (OperationType × String)) := do
  let directives ← Directive.parseAll .const room
  let entries ← optionalList .operationTypes .braceOpen .braceClose parseEntry
  return (directives, entries)

/-- A schema must have something. -/
def emptyBody? (parts : List (Directive .const) × List (OperationType × String)) :
    Option SyntaxFault :=
  if parts.1.isEmpty && parts.2.isEmpty then some .expectedSchemaBody else none

theorem parse_run (room : Nat) (heading : Heading) (t : TokenKind) (ts : List TokenKind) :
    parse room heading (t :: ts) = (parseParts room >>= fun parts =>
      match emptyBody? parts with
      | some f => fail f
      | none =>
        pure { heading with directives := parts.1, operationTypes := Entries.ofPairs parts.2 }) ts := by
  unfold parse parseParts emptyBody?
  rw [skip_bind_run, List.tail_cons]
  simp only [bind_assoc, pure_bind]
  refine congrFun (congrArg (_ >>= ·) (funext fun directives => congrArg (_ >>= ·)
    (funext fun entries => ?_))) ts
  split <;> rfl

end SchemaDefinition

namespace TypeDefinition

/-- Why a type that these are the parts of is refused. -/
def emptyBody? (heading : Heading) (name : String) (parts : List (Directive .const) × TypeBody) :
    Option SyntaxFault :=
  ({ heading with name, directives := parts.1, body := parts.2 } : TypeDefinition).emptyExtension?.map
    (.emptyExtension · name)

theorem parse_run (room : Nat) (heading : Heading) (kind : TypeKind) (t : TokenKind)
    (ts : List TokenKind) :
    parse room heading kind (t :: ts) = (Parser.name >>= fun name =>
      TypeBody.parse room kind >>= fun parts =>
        match emptyBody? heading name parts with
        | some f => fail f
        | none => pure { heading with name, directives := parts.1, body := parts.2 }) ts := by
  unfold parse emptyBody?
  rw [skip_bind_run, List.tail_cons]
  refine congrFun (congrArg (_ >>= ·) (funext fun name => congrArg (_ >>= ·)
    (funext fun parts => ?_))) ts
  dsimp only
  cases TypeDefinition.emptyExtension? _ <;> rfl

end TypeDefinition

namespace DirectiveDefinition

theorem parseLocation_eq :
    parseLocation = lookedUp DirectiveLocation.ofName? .unknownLocation .expectedLocation := by
  funext ts
  unfold parseLocation lookedUp
  rw [peek_bind_run]
  rcases ts with _ | ⟨_ | text | _ | _ | _, ts⟩
  case cons.name =>
    simp only [List.head?_cons]
    cases DirectiveLocation.ofName? text <;> rfl
  all_goals rfl

end DirectiveDefinition

/-- Whether the heading may stand in front of the keyword. -/
def Heading.Allows (h : Heading) : DefinitionKeyword → Prop
  | .operation _ | .fragment => h.description = none ∧ h.isExtension = false
  | .directive => h.isExtension = false
  | .schema | .type _ => True

namespace Definition

/-- The definition that a keyword begins, at the keyword. -/
def parseOf (room : Nat) (heading : Heading) : DefinitionKeyword → Parser Definition
  | .operation operationType => operation <$> OperationDefinition.parse room operationType
  | .fragment => fragment <$> FragmentDefinition.parse room
  | .schema => schema <$> SchemaDefinition.parse room heading
  | .directive => directive <$> DirectiveDefinition.parse room heading.description
  | .type kind => type <$> TypeDefinition.parse room heading kind

/-- What stands behind the heading of a definition. -/
def parseBody (room : Nat) (heading : Heading) : Parser Definition := do
  match ← peek with
  | some (.name keyword) => parseKeyword room heading keyword
  | _ => fail .expectedDefinition

/-- Why the keyword is refused behind the heading. -/
def faultFor (heading : Heading) (keyword : String) : SyntaxFault :=
  match DefinitionKeyword.ofName? keyword with
  | some .directive => .extendedDirective
  | some _ =>
    if heading.description.isSome then .describedExecutable keyword else .extendedExecutable keyword
  | none => .unknownDefinition

theorem parseBody_of_not_allowed {heading : Heading} {keyword : String}
    (h : ∀ k, DefinitionKeyword.ofName? keyword = some k → ¬ heading.Allows k) (room : Nat)
    (ts : List TokenKind) :
    parseBody room heading (.name keyword :: ts) =
      .error ⟨.fault (faultFor heading keyword), .name keyword :: ts⟩ := by
  unfold parseBody parseKeyword faultFor
  rw [peek_bind_run]
  simp only [List.head?_cons]
  cases hk : DefinitionKeyword.ofName? keyword with
  | none => rfl
  | some k =>
    have hk := h k hk
    obtain ⟨description, isExtension⟩ := heading
    cases k <;> cases description <;> cases isExtension <;> simp [Heading.Allows] at hk <;> rfl

theorem parseBody_of_keyword {heading : Heading} {keyword : String} {k : DefinitionKeyword}
    (hk : DefinitionKeyword.ofName? keyword = some k) (h : heading.Allows k) (room : Nat)
    (ts : List TokenKind) :
    parseBody room heading (.name keyword :: ts) = parseOf room heading k (.name keyword :: ts) := by
  unfold parseBody parseKeyword
  rw [peek_bind_run]
  simp only [List.head?_cons, hk]
  obtain ⟨description, isExtension⟩ := heading
  cases k <;> simp only [parseOf, map_eq_bind]
  case operation operationType =>
    obtain ⟨rfl, rfl⟩ := h
    rfl
  case fragment =>
    obtain ⟨rfl, rfl⟩ := h
    rfl
  case directive =>
    cases h
    rfl

theorem parse_run (room : Nat) (ts : List TokenKind) :
    parse room ts =
      if ts.head? = some (punct .braceOpen) then
        ((fun selections => operation (.shorthand selections)) <$> Selection.parseSet room) ts
      else (Heading.parse >>= parseBody room) ts := by
  unfold parse
  rw [peek_bind_run, map_eq_bind]
  split <;> rfl

theorem parseAll_run (room : Nat) (h : Takes 1 (parse room)) (ts : List TokenKind) :
    parseAll room ts =
      if ts = [] then .ok ([], [])
      else (parse room >>= fun d => (d :: ·) <$> parseAll room) ts :=
  untilEnd_run h ts

end Definition

end GraphQLSyntax
