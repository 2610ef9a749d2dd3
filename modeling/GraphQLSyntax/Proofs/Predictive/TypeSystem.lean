import GraphQLSyntax.Proofs.Predictive.Values

/-!
# Predictive parsers of the type system

A definition of the type system begins with its keyword too. Schemas and extensions are checked
once they have been read, and what does not pass was read from no tokens, so the fault is noticed
where a directive could still stand.
-/

namespace GraphQLSyntax

open GraphQLSyntax.Parser

variable {room : Nat}

/-! ## Schemas -/

namespace SchemaDefinition

private theorem predictive_parseOperationType :
    Predictive (.taking (· = .name "query") fun _ => False) (fun _ => parseOperationType) room :=
  (predictive_lookedUp "query" (by decide) (by decide)).congr fun _ => parseOperationType_eq

theorem predictive_parseEntry (room : Nat) :
    Predictive (.taking (· = .name "query") fun _ => False) (fun _ => parseEntry) room := by
  have h := predictive_parseOperationType.bind (fun operation =>
    (predictive_expect .colon : Predictive _ _ room).bind (fun _ =>
    predictive_name.bind (fun name => .pure (operation, name)) (by simp)) (by simp)) (by simp)
  exact h.mono ⟨by simp, by simp, by simp, by simp⟩

theorem takes_parseEntry : Takes 1 parseEntry :=
  Predictive.takes predictive_parseEntry 0

private theorem predictive_parseParts (room : Nat) :
    Predictive (.optional (fun _ => False) fun t => t = punct .braceOpen ∨ t = punct .parenOpen ∨
      t = punct .atSign) parseParts room := by
  have h := (Directive.predictive_parseAll (m := .const) room).bind (fun directives =>
    ((predictive_parseEntry room).optionalList .operationTypes .braceOpen .braceClose
      (fun _ => takes_parseEntry) rfl (by simp) (by simp)).bind
    (fun entries => .pure (directives, entries)) (by simp)) (by simp)
  exact h.mono ⟨by simp, by simp, by simp, by simp⟩

private theorem eq_of_emptyBody {room : Nat} {ts rest : List TokenKind}
    {parts : List (Directive .const) × List (OperationType × String)}
    (h : parseParts room ts = .ok (parts, rest)) (hparts : (emptyBody? parts).isSome) :
    rest = ts := by
  obtain ⟨directives, mid, h₁, h⟩ := bind_eq_ok.mp h
  obtain ⟨entries, mid', h₂, h⟩ := bind_eq_ok.mp h
  obtain ⟨rfl, rfl⟩ := pure_eq_ok.mp h
  obtain ⟨rfl, rfl⟩ : directives = [] ∧ entries = [] := by
    simpa [emptyBody?] using hparts
  rw [optionalList_eq_nil takes_parseEntry h₂,
    each_eq_nil ((Directive.takes_parse room).mono (Nat.zero_le 1)) h₁]

theorem predictiveBehind (t : TokenKind) (heading : Heading) :
    PredictiveBehind t (.optional (fun _ => False) fun t => t = punct .braceOpen ∨
      t = punct .parenOpen ∨ t = punct .atSign) (fun room => parse room heading) room := by
  -- A sign without a name is completed to a directive, with which a schema need not have entries.
  obtain ⟨pre, hpre, hat, -⟩ := ((predictive_parseParts 0).all [punct .atSign]).fault rfl
  obtain rfl : pre = [punct .atSign] := by simpa using hpre.symm
  refine ((predictive_parseParts room).checked emptyBody? (punct .atSign)
    (fun _ _ _ _ => eq_of_emptyBody) rfl hat fun _ => rfl).behind
    (fun room ts => parse_run room heading t ts) (by simp)

end SchemaDefinition

/-! ## Types -/

namespace FieldDefinition

theorem predictive (room : Nat) :
    Predictive (.taking (· = .name "a") fun t => t = punct .bang ∨ t = punct .parenOpen ∨
      t = punct .atSign) parse room := by
  have h := predictive_string?.bind (fun description => predictive_name.bind (fun name =>
    (InputValueDefinition.predictive_parseArguments room).bind (fun arguments =>
    (predictive_expect .colon).bind (fun _ => (TypeRef.predictive room).bind (fun type =>
    (Directive.predictive_parseAll room).bind (fun directives =>
    .pure (⟨description, name, arguments, type, directives⟩ : FieldDefinition))
    (by simp)) (by simp)) (by simp)) (by simp)) (by simp)) (by simp)
  exact h.mono ⟨by simp, by simp, by simp, by simp; grind⟩

theorem takes_parse (room : Nat) : Takes 1 (parse room) :=
  Predictive.takes predictive room

end FieldDefinition

namespace EnumValueDefinition

theorem predictive (room : Nat) :
    Predictive (.taking (· = .name "a") fun t => t = punct .parenOpen ∨ t = punct .atSign) parse
      room := by
  have h := predictive_string?.bind (fun description => predictive_name.bind (fun name =>
    (Directive.predictive_parseAll room).bind (fun directives =>
    .pure (⟨description, name, directives⟩ : EnumValueDefinition))
    (by simp)) (by simp)) (by simp)
  exact h.mono ⟨by simp, by simp, by simp, by simp⟩

theorem takes_parse (room : Nat) : Takes 1 (parse room) :=
  Predictive.takes predictive room

end EnumValueDefinition

namespace TypeBody

/-- What can follow the name of a type and belong to its definition. -/
def GoesOn (t : TokenKind) : Prop :=
  t = .name "implements" ∨ t = punct .amp ∨ t = punct .atSign ∨ t = punct .parenOpen ∨
    t = punct .braceOpen ∨ t = punct .equals ∨ t = punct .pipe

private theorem predictive_names (separator : Punctuator) :
    Predictive (.taking (· = .name "a") (· = punct separator))
      (fun _ => Parser.separated separator name) room :=
  (predictive_name.separated separator (fun _ => takes_name.mono (by omega)) (by simp) rfl).mono
    ⟨by simp, by simp, by simp, by simp⟩

theorem predictive_parseInterfaces :
    Predictive (.optional (fun _ => False) fun t => t = .name "implements" ∨ t = punct .amp)
      (fun _ => parseInterfaces) room :=
  (Predictive.choose (k := .name "implements") (predictive_names .amp) (.pure []) (by simp)
    fun _ ts => eat_bind_run _ _ ts).mono ⟨by simp, by simp, by simp, by simp⟩

theorem predictive_parseMembers :
    Predictive (.optional (fun _ => False) fun t => t = punct .equals ∨ t = punct .pipe)
      (fun _ => parseMembers) room :=
  (Predictive.choose (k := punct .equals) (predictive_names .pipe) (.pure []) (by simp)
    fun _ ts => eat_bind_run _ _ ts).mono ⟨by simp, by simp, by simp, by simp⟩

private theorem predictive_parseBlock {α : Type} {ι : Profile} {item : Nat → Parser α}
    (list : NonemptyList) (ht : ∀ room, Takes 1 (item room)) (hi : ι.inside = false)
    (hs : ∀ t, ι.starts t → t ≠ punct .braceClose) (hg : ¬ ι.goesOn (punct .braceClose))
    (h : Predictive ι item room) :
    Predictive (.optional (fun _ => False) (· = punct .braceOpen))
      (fun room => parseBlock list (item room)) room :=
  h.optionalList list .braceOpen .braceClose ht hi hs hg

private theorem predictive_withInterfaces
    (f : List String → List FieldDefinition → TypeBody) (room : Nat) :
    Predictive (.optional (fun _ => False) GoesOn) (fun room => do
      let interfaces ← parseInterfaces
      let directives ← Directive.parseAll .const room
      return (directives, f interfaces (← parseBlock .fields (FieldDefinition.parse room))))
      room := by
  have h := predictive_parseInterfaces.bind (fun interfaces =>
    (Directive.predictive_parseAll (m := .const) room).bind (fun directives =>
    (predictive_parseBlock .fields FieldDefinition.takes_parse rfl (by simp)
      (by simp) (FieldDefinition.predictive room)).bind (fun fields =>
    .pure (directives, f interfaces fields)) (by simp)) (by simp)) (by simp)
  exact h.mono ⟨by simp, by simp, by simp, by simp [GoesOn]; grind⟩

private theorem predictive_withBlock {α : Type} {ι : Profile} {item : Nat → Parser α}
    (list : NonemptyList) (f : List α → TypeBody) (ht : ∀ room, Takes 1 (item room))
    (hi : ι.inside = false) (hs : ∀ t, ι.starts t → t ≠ punct .braceClose)
    (hg : ¬ ι.goesOn (punct .braceClose)) (h : Predictive ι item room) :
    Predictive (.optional (fun _ => False) GoesOn) (fun room => do
      let directives ← Directive.parseAll .const room
      return (directives, f (← parseBlock list (item room)))) room := by
  have h := (Directive.predictive_parseAll (m := .const) room).bind (fun directives =>
    (predictive_parseBlock list ht hi hs hg h).bind (fun items =>
    .pure (directives, f items)) (by simp)) (by simp)
  exact h.mono ⟨by simp, by simp, by simp, by simp [GoesOn]⟩

theorem predictive (kind : TypeKind) (room : Nat) :
    Predictive (.optional (fun _ => False) GoesOn) (fun room => parse room kind) room := by
  cases kind with
  | scalar =>
    have h := (Directive.predictive_parseAll (m := .const) room).bind
      (fun directives => .pure (directives, scalar)) (by simp)
    exact h.mono ⟨by simp, by simp, by simp, by simp [GoesOn]⟩
  | object => exact predictive_withInterfaces object room
  | interface => exact predictive_withInterfaces interface room
  | union =>
    have h := (Directive.predictive_parseAll (m := .const) room).bind (fun directives =>
      predictive_parseMembers.bind (fun members => .pure (directives, union members)) (by simp))
      (by simp)
    exact h.mono ⟨by simp, by simp, by simp, by simp [GoesOn]; grind⟩
  | enum =>
    exact predictive_withBlock .enumValues enum EnumValueDefinition.takes_parse rfl
      (by simp) (by simp) (EnumValueDefinition.predictive room)
  | input =>
    exact predictive_withBlock .inputFields input InputValueDefinition.takes_parse
      rfl (by simp) (by simp) (InputValueDefinition.predictive room)

/-! ### Types with nothing in them -/

private theorem parseInterfaces_eq_nil {ts rest : List TokenKind}
    (h : parseInterfaces ts = .ok ([], rest)) : rest = ts := by
  rcases eat_bind_eq_ok.mp h with ⟨tail, rfl, h⟩ | ⟨-, h⟩
  · exact (separated_ne_nil h).elim
  · exact (pure_eq_ok.mp h).2.symm

private theorem parseDirectives_eq_nil {room : Nat} {ts rest : List TokenKind}
    (h : Directive.parseAll .const room ts = .ok ([], rest)) : rest = ts :=
  each_eq_nil ((Directive.takes_parse room).mono (Nat.zero_le 1)) h

private theorem withInterfaces_eq_nil {f : List String → List FieldDefinition → TypeBody}
    {room : Nat} {ts rest : List TokenKind} (hf : ∀ is fs, f is fs = f [] [] → is = [] ∧ fs = [])
    (h : (do
      let interfaces ← parseInterfaces
      let directives ← Directive.parseAll .const room
      return (directives, f interfaces (← parseBlock .fields (FieldDefinition.parse room))) :
        Parser _) ts = .ok (([], f [] []), rest)) : rest = ts := by
  obtain ⟨interfaces, mid, h₁, h⟩ := bind_eq_ok.mp h
  obtain ⟨directives, mid', h₂, h⟩ := bind_eq_ok.mp h
  obtain ⟨fields, mid'', h₃, h⟩ := bind_eq_ok.mp h
  obtain ⟨hx, rfl⟩ := pure_eq_ok.mp h
  obtain ⟨rfl, hbody⟩ := Prod.mk.inj hx
  obtain ⟨rfl, rfl⟩ := hf _ _ hbody
  rw [optionalList_eq_nil (FieldDefinition.takes_parse room) h₃,
    parseDirectives_eq_nil h₂, parseInterfaces_eq_nil h₁]

private theorem withBlock_eq_nil {α : Type} {list : NonemptyList} {item : Parser α}
    {f : List α → TypeBody} {room : Nat} {ts rest : List TokenKind} (ht : Takes 1 item)
    (hf : ∀ xs, f xs = f [] → xs = [])
    (h : (do
      let directives ← Directive.parseAll .const room
      return (directives, f (← parseBlock list item)) : Parser _) ts =
        .ok (([], f []), rest)) : rest = ts := by
  obtain ⟨directives, mid, h₁, h⟩ := bind_eq_ok.mp h
  obtain ⟨items, mid', h₂, h⟩ := bind_eq_ok.mp h
  obtain ⟨hx, rfl⟩ := pure_eq_ok.mp h
  obtain ⟨rfl, hbody⟩ := Prod.mk.inj hx
  obtain rfl := hf _ hbody
  rw [optionalList_eq_nil ht h₂, parseDirectives_eq_nil h₁]

theorem kind_of_parse {room : Nat} {kind : TypeKind} {ts rest : List TokenKind}
    {parts : List (Directive .const) × TypeBody}
    (h : parse room kind ts = .ok (parts, rest)) : parts.2.kind = kind := by
  cases kind <;> simp only [parse, bind_eq_ok, pure_eq_ok] at h <;> grind [TypeBody.kind]

end TypeBody

namespace TypeDefinition

private theorem of_emptyBody {heading : Heading} {name : String}
    {parts : List (Directive .const) × TypeBody}
    (h : (emptyBody? heading name parts).isSome) :
    parts = ([], .interface [] []) ∨ parts = ([], .enum []) ∨ parts = ([], .input []) := by
  obtain ⟨directives, body⟩ := parts
  cases body <;>
    simp [emptyBody?, emptyExtension?, TypeBody.interfaces, TypeBody.lacksBlock, TypeBody.kind]
      at h <;>
    simp [h]

private theorem eq_of_emptyBody {room : Nat} {heading : Heading} {name : String} {kind : TypeKind}
    {ts rest : List TokenKind} {parts : List (Directive .const) × TypeBody}
    (h : TypeBody.parse room kind ts = .ok (parts, rest))
    (hparts : (emptyBody? heading name parts).isSome) : rest = ts := by
  have hkind := TypeBody.kind_of_parse h
  rcases of_emptyBody hparts with rfl | rfl | rfl <;> subst hkind
  · exact TypeBody.withInterfaces_eq_nil (f := .interface) (by simp) h
  · exact TypeBody.withBlock_eq_nil (f := .enum)
      (EnumValueDefinition.takes_parse room) (by simp) h
  · exact TypeBody.withBlock_eq_nil (f := .input)
      (InputValueDefinition.takes_parse room) (by simp) h

theorem predictiveBehind (t : TokenKind) (heading : Heading) (kind : TypeKind) :
    PredictiveBehind t (.optional (fun _ => False) TypeBody.GoesOn)
      (fun room => parse room heading kind) room := by
  -- A sign without a name is completed to a directive, with which no extension is empty.
  have hfault : TypeBody.parse 0 kind [punct .atSign] = .error ⟨.fault .expectedName, []⟩ := by
    cases kind <;> rfl
  obtain ⟨pre, hpre, hat, -⟩ := ((TypeBody.predictive kind 0).all [punct .atSign]).fault hfault
  obtain rfl : pre = [punct .atSign] := by simpa using hpre.symm
  refine (predictive_name.bind (fun name => (TypeBody.predictive kind room).checked
    (emptyBody? heading name) (punct .atSign)
    (fun _ _ _ _ => eq_of_emptyBody) rfl hat fun _ => rfl) (by simp)).behind
    (fun room ts => parse_run room heading kind t ts) (by simp)

end TypeDefinition

/-! ## Directives -/

namespace DirectiveDefinition

theorem predictive_parseLocation (room : Nat) :
    Predictive (.taking (· = .name "FIELD") fun _ => False) (fun _ => parseLocation) room :=
  (predictive_lookedUp "FIELD" (by decide) (by decide)).congr fun _ => parseLocation_eq

theorem takes_parseLocation : Takes 1 parseLocation :=
  Predictive.takes predictive_parseLocation 0

theorem predictiveBehind (t : TokenKind) (description : Option String) :
    PredictiveBehind t (.optional (fun _ => False) (· = punct .pipe))
      (fun room => parse room description) room := by
  have hplaces := (predictive_parseLocation room).separated .pipe
    (fun _ => takes_parseLocation.mono (Nat.zero_le 1)) (by simp) rfl
  have h := (predictive_expect .atSign).bind (fun _ => predictive_name.bind (fun name =>
    (InputValueDefinition.predictive_parseArguments room).bind (fun arguments =>
    (predictive_eat (.name "repeatable")).bind (fun repeatable =>
    (predictive_expectKeyword "on" (by decide)).bind (fun _ =>
    hplaces.bind (fun locations =>
    .pure (⟨description, name, arguments, repeatable, locations⟩ : DirectiveDefinition))
    (by simp)) (by simp)) (by simp)) (by simp)) (by simp)) (by simp)
  exact h.behind (fun _ _ => rfl) (by simp)

end DirectiveDefinition

end GraphQLSyntax
