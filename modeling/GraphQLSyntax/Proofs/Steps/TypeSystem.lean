import GraphQLSyntax.Proofs.Document.Optional
import GraphQLSyntax.Proofs.Steps.Executable

/-!
# The type system, stepwise

A list of names can have a separator in front. Apart from that, and from repeated operation types of
a schema, a definition is written as it was read.
-/

namespace GraphQLSyntax

variable {n : Nat}

/-! ## Names -/

private theorem written_names (separator : Punctuator) (names : List String) :
    Written.separated separator (names.map fun text => .token (.name text)) =
      .flat (separated separator names) := by
  cases names with
  | nil => rfl
  | cons text names =>
    rw [List.map_cons, Written.separated]
    ext1
    · simp [separated, intersperse_cons, List.flatMap_map]
    · have hflat : listDepth (fun _ => 0) names = 0 :=
        Nat.le_zero.mp (listDepth_le.mpr fun _ _ => Nat.le_refl 0)
      simp [hflat]

private theorem written_named {α : Type} (separator : Punctuator) (f : α → String) (xs : List α) :
    Written.separated separator (xs.map fun x => .token (.name (f x))) =
      .flat (separated separator (xs.map f)) := by
  rw [← written_names, List.map_map]
  rfl

private def stepwiseNames (n : Nat) (separator : Punctuator) :
    Stepwise n (fun _ => Parser.separated separator Parser.name) fun names w => names ≠ [] ∧
      ∃ optional, w = .flat (leading optional separator ++ separated separator names) :=
  (Stepwise.separated separator Stepwise.name fun _ => Parser.takes_name.mono (Nat.zero_le 1)).mono
    (by
      rintro names _ ⟨hne, optional, rfl⟩
      refine ⟨hne, optional, ?_⟩
      rw [written_names]
      cases optional <;> rfl)

/-! ## Parts of types -/

namespace FieldDefinition

def written (d : FieldDefinition) : Written where
  tokens := d.tokens
  depth := d.depth

def stepwise (n : Nat) : Stepwise n parse (Exactly written) :=
  (Stepwise.string?.bind fun description => Stepwise.name.bind fun name =>
    (InputValueDefinition.stepwiseArguments n).bind fun arguments =>
    (Stepwise.expect .colon).bind fun _ => (TypeRef.stepwise n).bind fun type =>
    (Directive.stepwiseAll .const n).bind fun directives =>
    .pure (⟨description, name, arguments, type, directives⟩ : FieldDefinition)).mono (by
    rintro _ _ ⟨description, _, _, rfl, ⟨name, _, _, rfl, ⟨arguments, _, _, rfl, ⟨_, _, _, rfl,
      ⟨type, _, _, rfl, ⟨directives, _, _, rfl, ⟨rfl, rfl⟩, rfl⟩, rfl⟩, rfl⟩, rfl⟩, rfl⟩, rfl⟩
    ext1
    · simp [written, tokens, TypeRef.written, InputValueDefinition.argumentsWritten,
        Directive.allWritten]
    · simp [written, depth, TypeRef.written, InputValueDefinition.argumentsWritten,
        Directive.allWritten])

end FieldDefinition

namespace EnumValueDefinition

def written (d : EnumValueDefinition) : Written where
  tokens := d.tokens
  depth := d.depth

def stepwise (n : Nat) : Stepwise n parse (Exactly written) :=
  (Stepwise.string?.bind fun description => Stepwise.name.bind fun name =>
    (Directive.stepwiseAll .const n).bind fun directives =>
    .pure (⟨description, name, directives⟩ : EnumValueDefinition)).mono (by
    rintro _ _ ⟨description, _, _, rfl, ⟨name, _, _, rfl, ⟨directives, _, _, rfl, ⟨rfl, rfl⟩, rfl⟩,
      rfl⟩, rfl⟩
    ext1
    · simp [written, tokens, Directive.allWritten]
    · simp [written, depth, Directive.allWritten])

end EnumValueDefinition

namespace TypeBody

/-- The parts of a type as they are read: directives stand behind the interfaces and in front of
all else. -/
def written (optional : Bool) (parts : List (Directive .const) × TypeBody) : Written where
  tokens := interfaceTokensWith optional parts.2.interfaces ++ Directive.allTokens parts.1 ++
    parts.2.tokensWith optional
  depth := max (listDepth Directive.depth parts.1) parts.2.depth

private def stepwiseInterfaces (n : Nat) :
    Stepwise n (fun _ => parseInterfaces) fun names w =>
      ∃ optional, w = .flat (interfaceTokensWith optional names) :=
  (Stepwise.ifEat (.name "implements") (stepwiseNames n .amp) (.pure [])).mono (by
    rintro names _ (⟨_, ⟨hne, optional, rfl⟩, rfl⟩ | ⟨rfl, rfl⟩)
    · refine ⟨optional, ?_⟩
      ext1 <;> simp [interfaceTokensWith, hne]
    · exact ⟨false, rfl⟩)

private def stepwiseMembers (n : Nat) :
    Stepwise n (fun _ => parseMembers) fun names w =>
      ∃ optional, w = .flat (memberTokensWith optional names) :=
  (Stepwise.ifEat (punct .equals) (stepwiseNames n .pipe) (.pure [])).mono (by
    rintro names _ (⟨_, ⟨hne, optional, rfl⟩, rfl⟩ | ⟨rfl, rfl⟩)
    · refine ⟨optional, ?_⟩
      ext1 <;> simp [memberTokensWith, hne]
    · exact ⟨false, rfl⟩)

private def blockWritten {α : Type} (W : α → Written) (items : List α) : Written :=
  .enclosed .braceOpen .braceClose (items.map W)

private def stepwiseWithInterfaces (f : List String → List FieldDefinition → TypeBody) (n : Nat) :
    Stepwise n (fun room => do
      let interfaces ← parseInterfaces
      let directives ← Directive.parseAll .const room
      return (directives, f interfaces (← parseBlock .fields (FieldDefinition.parse room))))
      fun parts w => ∃ interfaces fields, parts.2 = f interfaces fields ∧ ∃ optional,
        w = .flat (interfaceTokensWith optional interfaces) ++
          (Directive.allWritten parts.1 ++ blockWritten FieldDefinition.written fields) :=
  ((stepwiseInterfaces n).bind fun interfaces => (Directive.stepwiseAll .const n).bind
    fun directives => (Stepwise.optionalList .fields .braceOpen .braceClose
      (FieldDefinition.stepwise n) FieldDefinition.takes_parse).bind fun fields =>
    .pure (directives, f interfaces fields)).mono (by
    rintro _ _ ⟨interfaces, _, _, ⟨optional, rfl⟩, ⟨directives, _, _, rfl, ⟨fields, _, _, rfl,
      ⟨rfl, rfl⟩, rfl⟩, rfl⟩, rfl⟩
    exact ⟨interfaces, fields, rfl, optional, by rw [Written.append_empty]; rfl⟩)

private def stepwiseWithBlock {α : Type} (list : NonemptyList) (f : List α → TypeBody)
    {item : Nat → Parser α} {W : α → Written} (X : Stepwise n item (Exactly W))
    (ht : ∀ room, Parser.Takes 1 (item room)) :
    Stepwise n (fun room => do
      let directives ← Directive.parseAll .const room
      return (directives, f (← parseBlock list (item room))))
      fun parts w => ∃ items, parts.2 = f items ∧
        w = Directive.allWritten parts.1 ++ blockWritten W items :=
  ((Directive.stepwiseAll .const n).bind fun directives =>
    (Stepwise.optionalList list .braceOpen .braceClose X ht).bind fun items =>
    .pure (directives, f items)).mono (by
    rintro _ _ ⟨directives, _, _, rfl, ⟨items, _, _, rfl, ⟨rfl, rfl⟩, rfl⟩, rfl⟩
    exact ⟨items, rfl, by rw [Written.append_empty]; rfl⟩)

def stepwise (n : Nat) : (kind : TypeKind) →
    Stepwise n (fun room => parse room kind) fun parts w =>
      parts.2.kind = kind ∧ ∃ optional, w = written optional parts
  | .scalar => ((Directive.stepwiseAll .const n).bind fun directives =>
      .pure (directives, scalar)).mono (by
      rintro _ _ ⟨directives, _, _, rfl, ⟨rfl, rfl⟩, rfl⟩
      refine ⟨rfl, false, ?_⟩
      ext1
      · simp [written, interfaces, interfaceTokensWith, tokensWith, tokens, Directive.allWritten]
      · simp [written, depth, Directive.allWritten])
  | .object => (stepwiseWithInterfaces object n).mono (by
      rintro ⟨directives, _⟩ _ ⟨names, fields, rfl, optional, rfl⟩
      refine ⟨rfl, optional, ?_⟩
      ext1
      · simp [written, interfaces, tokensWith, tokens, blockTokens, blockWritten,
          Directive.allWritten, FieldDefinition.written, Function.comp_def]
      · simp [written, depth, blockWritten, Directive.allWritten, FieldDefinition.written])
  | .interface => (stepwiseWithInterfaces interface n).mono (by
      rintro ⟨directives, _⟩ _ ⟨names, fields, rfl, optional, rfl⟩
      refine ⟨rfl, optional, ?_⟩
      ext1
      · simp [written, interfaces, tokensWith, tokens, blockTokens, blockWritten,
          Directive.allWritten, FieldDefinition.written, Function.comp_def]
      · simp [written, depth, blockWritten, Directive.allWritten, FieldDefinition.written])
  | .union => ((Directive.stepwiseAll .const n).bind fun directives =>
      (stepwiseMembers n).bind fun members => .pure (directives, union members)).mono (by
      rintro _ _ ⟨directives, _, _, rfl, ⟨members, _, _, ⟨optional, rfl⟩, ⟨rfl, rfl⟩, rfl⟩, rfl⟩
      refine ⟨rfl, optional, ?_⟩
      ext1
      · simp [written, interfaces, interfaceTokensWith, tokensWith, Directive.allWritten]
      · simp [written, depth, Directive.allWritten])
  | .enum => (stepwiseWithBlock .enumValues enum (EnumValueDefinition.stepwise n)
      EnumValueDefinition.takes_parse).mono (by
      rintro ⟨directives, _⟩ _ ⟨values, rfl, rfl⟩
      refine ⟨rfl, false, ?_⟩
      ext1
      · simp [written, interfaces, interfaceTokensWith, tokensWith, tokens, blockTokens,
          blockWritten, Directive.allWritten, EnumValueDefinition.written, Function.comp_def]
      · simp [written, depth, blockWritten, Directive.allWritten, EnumValueDefinition.written])
  | .input => (stepwiseWithBlock .inputFields input (InputValueDefinition.stepwise n)
      InputValueDefinition.takes_parse).mono (by
      rintro ⟨directives, _⟩ _ ⟨fields, rfl, rfl⟩
      refine ⟨rfl, false, ?_⟩
      ext1
      · simp [written, interfaces, interfaceTokensWith, tokensWith, tokens, blockTokens,
          blockWritten, Directive.allWritten, InputValueDefinition.written, Function.comp_def]
      · simp [written, depth, blockWritten, Directive.allWritten, InputValueDefinition.written])

end TypeBody

/-! ## Types -/

namespace TypeDefinition

/-- What stands behind the keyword. -/
def stepwise (n : Nat) (heading : Heading) (kind : TypeKind) (t : TokenKind) :
    Stepwise n (fun room ts => parse room heading kind (t :: ts)) fun d w =>
      ∃ optional, .flat heading.tokens ++ (.token (.name kind.keyword) ++ w) =
        ⟨d.tokensWith optional, d.depth⟩ :=
  ((Stepwise.name.bind fun name => (TypeBody.stepwise n kind).bind fun parts =>
    Stepwise.check (emptyBody? heading name parts)
      ({ heading with name, directives := parts.1, body := parts.2 } : TypeDefinition)).mono (by
    rintro _ _ ⟨name, _, _, rfl, ⟨parts, _, _, ⟨rfl, optional, rfl⟩, ⟨rfl, rfl⟩, rfl⟩, rfl⟩
    refine ⟨optional, ?_⟩
    ext1
    · simp [tokensWith, TypeBody.written]
    · simp [depth, TypeBody.written])).congr fun room ts _ => parse_run room heading kind t ts

end TypeDefinition

/-! ## Schemas -/

namespace SchemaDefinition

private def stepwiseEntry (n : Nat) :
    Stepwise n (fun _ => parseEntry) (Exactly fun entry => .flat (entryTokens entry)) :=
  (((Stepwise.lookedUp OperationType.ofName? .unknownOperationType .expectedOperationType).bind
    fun operation => (Stepwise.expect .colon).bind fun _ => Stepwise.name.bind fun name =>
    .pure (operation, name)).mono (by
    rintro _ _ ⟨operation, _, _, ⟨text, htext, rfl⟩, ⟨_, _, _, rfl, ⟨name, _, _, rfl, ⟨rfl, rfl⟩,
      rfl⟩, rfl⟩, rfl⟩
    rw [← OperationType.name_of_ofName? htext]
    rfl)).congr fun _ _ _ => by
    rw [parseEntry, parseOperationType_eq]

private def entriesWritten (entries : List (OperationType × String)) : Written :=
  .flat (enclosed .braceOpen .braceClose (entries.map entryTokens))

/-- The parts of a schema that is not refused. -/
private def stepwiseParts (n : Nat) :
    Stepwise n (fun room => parseParts room >>= fun parts => match emptyBody? parts with
        | some f => Parser.fail f
        | none => pure parts)
      (Exactly fun parts => Directive.allWritten parts.1 ++ entriesWritten parts.2) :=
  (((Directive.stepwiseAll .const n).bind fun directives =>
    (Stepwise.optionalList .operationTypes .braceOpen .braceClose (stepwiseEntry n)
      fun _ => takes_parseEntry).bind fun entries =>
    .pure (directives, entries)).bind fun parts => Stepwise.check (emptyBody? parts) parts).mono (by
    rintro _ _ ⟨_, _, _, ⟨directives, _, _, rfl, ⟨entries, _, _, rfl, ⟨rfl, rfl⟩, rfl⟩, rfl⟩,
      ⟨rfl, rfl⟩, rfl⟩
    have hflat : listDepth (fun _ => 0) entries = 0 :=
      Nat.le_zero.mp (listDepth_le.mpr fun _ _ => Nat.le_refl 0)
    ext1
    · simp [entriesWritten, Function.comp_def]
    · simp [entriesWritten, hflat])

/-- Entries of repeated operation types take tokens, but leave the delimiters. -/
private theorem entriesWritten_ofPairs (entries : List (OperationType × String)) :
    (entriesWritten (Entries.ofPairs entries)).tokens.length ≤
        (entriesWritten entries).tokens.length ∧
      (entriesWritten entries).tokens.head? =
        (entriesWritten (Entries.ofPairs entries)).tokens.head? := by
  cases entries with
  | nil => exact ⟨Nat.le_refl _, rfl⟩
  | cons entry entries =>
    have hle := Entries.length_flatMap_ofPairs_le entryTokens (entry :: entries)
    have hne := Entries.ofPairs_ne_nil (List.cons_ne_nil entry entries)
    rw [List.flatMap_def, List.flatMap_def] at hle
    constructor
    · simpa only [entriesWritten, Written.tokens_flat, enclosed, List.isEmpty_map,
        List.isEmpty_eq_false_iff.mpr hne, List.isEmpty_cons, Bool.false_eq_true, if_false,
        List.length_append, List.length_cons, Nat.add_le_add_iff_right] using hle
    · simp [entriesWritten, enclosed, hne]

/-- What stands behind the keyword. A repeated operation type leaves one entry. -/
def stepwise (n : Nat) (heading : Heading) (t : TokenKind) :
    Stepwise n (fun room ts => parse room heading (t :: ts)) fun d w =>
      .flat heading.tokens ++ (.token (.name "schema") ++ w) = ⟨d.tokens, d.depth⟩ :=
  ((stepwiseParts n).merge
    (fun parts => ({ heading with directives := parts.1, operationTypes := Entries.ofPairs parts.2 } :
      SchemaDefinition))
    (fun parts => .schema (parts.2.map Prod.fst)) (by
    rintro ⟨directives, entries⟩ _ rfl
    refine ⟨Directive.allWritten directives ++ entriesWritten (Entries.ofPairs entries), ?_, ?_, ?_,
      ?_, ?_⟩
    · ext1 <;> simp [entriesWritten, tokens, depth, Directive.allWritten]
    · rw [Written.tokens_append, Written.tokens_append, List.length_append, List.length_append]
      exact Nat.add_le_add_left (entriesWritten_ofPairs entries).1 _
    · rw [Written.tokens_append, Written.tokens_append, List.head?_append, List.head?_append,
        (entriesWritten_ofPairs entries).2]
    · intro hkeys
      rw [Entries.ofPairs_of_nodup hkeys]
    · exact fun _ => Nat.le_refl _)).congr fun room ts _ => by
    rw [parse_run, Parser.map_eq_bind, bind_assoc]
    refine congrFun (congrArg (parseParts room >>= ·) (funext fun parts => ?_)) ts
    cases emptyBody? parts <;> rfl

end SchemaDefinition

/-! ## Directives -/

namespace DirectiveDefinition

private def stepwiseLocation (n : Nat) :
    Stepwise n (fun _ => parseLocation) (Exactly fun place => .token (.name place.name)) :=
  ((Stepwise.lookedUp DirectiveLocation.ofName? .unknownLocation .expectedLocation).mono (by
    rintro place _ ⟨text, htext, rfl⟩
    rw [Exactly, DirectiveLocation.name_of_ofName? htext])).congr fun _ _ _ => by
    rw [parseLocation_eq]

/-- What stands behind the keyword. -/
def stepwise (n : Nat) (description : Option String) (t : TokenKind) :
    Stepwise n (fun room ts => parse room description (t :: ts)) fun d w =>
      ∃ optional, .flat (descriptionTokens description) ++ (.token (.name "directive") ++ w) =
        ⟨d.tokensWith optional, d.depth⟩ :=
  (((Stepwise.expect .atSign).bind fun _ => Stepwise.name.bind fun name =>
    (InputValueDefinition.stepwiseArguments n).bind fun arguments =>
    (Stepwise.eat (.name "repeatable")).bind fun repeatable =>
    (Stepwise.expectKeyword "on").bind fun _ =>
    (Stepwise.separated .pipe (stepwiseLocation n)
      fun _ => takes_parseLocation.mono (Nat.zero_le 1)).bind
      fun locations =>
    .pure (⟨description, name, arguments, repeatable, locations⟩ : DirectiveDefinition)).mono (by
    rintro _ _ ⟨_, _, _, rfl, ⟨name, _, _, rfl, ⟨arguments, _, _, rfl, ⟨repeatable, _, _, rfl,
      ⟨_, _, _, rfl, ⟨locations, _, _, ⟨-, optional, rfl⟩, ⟨rfl, rfl⟩, rfl⟩, rfl⟩, rfl⟩, rfl⟩, rfl⟩,
      rfl⟩
    refine ⟨optional, ?_⟩
    rw [written_named]
    ext1
    · cases optional <;> cases repeatable <;>
        simp [tokensWith, InputValueDefinition.argumentsWritten, leading]
    · cases optional <;> cases repeatable <;>
        simp [depth, InputValueDefinition.argumentsWritten])).congr fun _ _ _ => rfl

end DirectiveDefinition

end GraphQLSyntax
