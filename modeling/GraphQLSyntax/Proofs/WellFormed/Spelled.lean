import GraphQLSyntax.Proofs.Token.Spelled
import GraphQLSyntax.Proofs.WellFormed.Legible
import GraphQLSyntax.Proofs.WellFormed.Tokens

/-!
# What is legible can be spelled

The tokens of a legible document are readable, and no number stands directly in front of a spread:
spreads stand in selection sets, and what ends in a number stands between delimiters.

* `Enclosable`: tokens without a spread, which may end in a number.
* `Spellable`: tokens with spreads, which may not.
* `Document.spellable_tokens`: those of a legible document are.
-/

namespace GraphQLSyntax

variable {m : ValueMode}

/-! ## Token sequences -/

/-- Readable tokens without a spread. -/
def Enclosable (ts : List TokenKind) : Prop :=
  ∀ t ∈ ts, t.isReadable = true ∧ t ≠ punct .spread

@[simp] theorem enclosable_nil : Enclosable [] := by
  simp [Enclosable]

theorem enclosable_cons {t : TokenKind} {ts : List TokenKind} :
    Enclosable (t :: ts) ↔ (t.isReadable = true ∧ t ≠ punct .spread) ∧ Enclosable ts :=
  List.forall_mem_cons

@[simp] theorem enclosable_name {text : String} {ts : List TokenKind} :
    Enclosable (.name text :: ts) ↔ isName text = true ∧ Enclosable ts := by
  simp [enclosable_cons, TokenKind.isReadable]

@[simp] theorem enclosable_punct {p : Punctuator} {ts : List TokenKind} :
    Enclosable (punct p :: ts) ↔ p ≠ .spread ∧ Enclosable ts := by
  simp [enclosable_cons, TokenKind.isReadable]

@[simp] theorem enclosable_string {text : String} {ts : List TokenKind} :
    Enclosable (.string text :: ts) ↔ Enclosable ts := by
  simp [enclosable_cons, TokenKind.isReadable]

@[simp] theorem enclosable_append {ts us : List TokenKind} :
    Enclosable (ts ++ us) ↔ Enclosable ts ∧ Enclosable us :=
  List.forall_mem_append

theorem enclosable_flatMap {α : Type} {xs : List α} {f : α → List TokenKind}
    (h : ∀ x ∈ xs, Enclosable (f x)) : Enclosable (xs.flatMap f) := by
  intro t ht
  obtain ⟨x, hx, ht⟩ := List.mem_flatMap.mp ht
  exact h x hx t ht

theorem enclosable_enclosed {α : Type} {opening close : Punctuator} {xs : List α}
    {f : α → List TokenKind} (hopening : opening ≠ .spread) (hclose : close ≠ .spread)
    (h : ∀ x ∈ xs, Enclosable (f x)) : Enclosable (enclosed opening close (xs.map f)) := by
  unfold enclosed
  split
  · exact enclosable_nil
  · rw [← List.flatMap_def]
    simp [enclosable_flatMap h, hopening, hclose]

theorem Enclosable.keepsApart {ts : List TokenKind} (h : Enclosable ts) : KeepsApart ts := by
  induction ts with
  | nil => trivial
  | cons t ts ih =>
    cases ts with
    | nil => trivial
    | cons u us => exact ⟨fun _ => (h u (by simp)).2, ih (enclosable_cons.mp h).2⟩

/-- Readable tokens that a text can be made of, and that do not end in a number. -/
structure Spellable (ts : List TokenKind) : Prop where
  readable : Readable ts
  keepsApart : KeepsApart ts
  last : ∀ t, ts.getLast? = some t → t.isNumber = false

theorem spellable_nil : Spellable [] :=
  ⟨readable_nil, trivial, by simp⟩

theorem Spellable.cons {t : TokenKind} {ts : List TokenKind} (ht : t.isReadable = true)
    (hnumber : t.isNumber = false) (h : Spellable ts) : Spellable (t :: ts) := by
  refine ⟨readable_cons.mpr ⟨ht, h.readable⟩, ?_, fun u hu => ?_⟩
  · cases ts with
    | nil => trivial
    | cons u us => exact ⟨by simp [hnumber], h.keepsApart⟩
  · cases ts with
    | nil =>
      obtain rfl := Option.some.inj hu
      exact hnumber
    | cons v vs => exact h.last u (by simpa using hu)

theorem Spellable.name {text : String} {ts : List TokenKind} (htext : isName text = true)
    (h : Spellable ts) : Spellable (.name text :: ts) :=
  .cons htext rfl h

theorem Spellable.punct (p : Punctuator) {ts : List TokenKind} (h : Spellable ts) :
    Spellable (GraphQLSyntax.punct p :: ts) :=
  .cons rfl rfl h

theorem keepsApart_append {ts us : List TokenKind} (hts : KeepsApart ts)
    (hlast : ∀ t, ts.getLast? = some t → t.isNumber = false) (hus : KeepsApart us) :
    KeepsApart (ts ++ us) := by
  induction ts with
  | nil => exact hus
  | cons t ts ih =>
    cases ts with
    | nil =>
      cases us with
      | nil => trivial
      | cons u us => exact ⟨by simp [hlast t rfl], hus⟩
    | cons v vs => exact ⟨hts.1, ih hts.2 fun u hu => hlast u (by simpa using hu)⟩

theorem Spellable.append {ts us : List TokenKind} (hts : Spellable ts) (hus : Spellable us) :
    Spellable (ts ++ us) := by
  refine ⟨readable_append.mpr ⟨hts.readable, hus.readable⟩,
    keepsApart_append hts.keepsApart hts.last hus.keepsApart, fun t ht => ?_⟩
  rw [List.getLast?_append] at ht
  cases hlast : us.getLast? with
  | none => exact hts.last t (by simpa [hlast] using ht)
  | some u =>
    rw [hlast] at ht
    obtain rfl := Option.some.inj ht
    exact hus.last u hlast

theorem spellable_flatMap {α : Type} {xs : List α} {f : α → List TokenKind}
    (h : ∀ x ∈ xs, Spellable (f x)) : Spellable (xs.flatMap f) := by
  induction xs with
  | nil => exact spellable_nil
  | cons x xs ih =>
    obtain ⟨hx, hxs⟩ := List.forall_mem_cons.mp h
    exact hx.append (ih hxs)

/-- What stands in front of a closing delimiter may end in a number. -/
theorem Enclosable.closed {ts : List TokenKind} (h : Enclosable ts) {close : Punctuator}
    (hclose : close ≠ .spread) : Spellable (ts ++ [punct close]) := by
  have hall : Enclosable (ts ++ [punct close]) := by
    simp [h, hclose]
  refine ⟨fun t ht => (hall t ht).1, hall.keepsApart, fun t ht => ?_⟩
  obtain rfl : punct close = t := by simpa using ht
  rfl

theorem spellable_enclosed {α : Type} {opening close : Punctuator} {xs : List α}
    {f : α → List TokenKind} (hclose : close ≠ .spread) (h : ∀ x ∈ xs, Enclosable (f x)) :
    Spellable (enclosed opening close (xs.map f)) := by
  unfold enclosed
  split
  · exact spellable_nil
  · rw [← List.flatMap_def, List.cons_append]
    exact ((enclosable_flatMap h).closed hclose).punct opening

/-! ## Types and values -/

theorem enclosable_descriptionTokens (description : Option String) :
    Enclosable (descriptionTokens description) := by
  cases description <;> simp [descriptionTokens]

theorem spellable_descriptionTokens (description : Option String) :
    Spellable (descriptionTokens description) := by
  cases description with
  | none => exact spellable_nil
  | some text => exact spellable_nil.cons rfl rfl

theorem TypeRef.enclosable_tokens {type : TypeRef} (h : type.Legible) :
    Enclosable type.tokens := by
  induction type with
  | named name =>
    have hname : isName name = true := h
    simp [tokens, hname]
  | list inner ih | nonNull inner ih => simp [tokens, ih h]

namespace Value

mutual

theorem enclosable_tokens : ∀ value : Value m, value.Legible → Enclosable value.tokens
  | varRef name _, h => by
    have hname : isName name = true := by rwa [Legible] at h
    simp [tokens, hname]
  | boolean true, _ | boolean false, _ | null, _ => by
    rw [tokens, enclosable_name]
    exact ⟨by decide, enclosable_nil⟩
  | int _, _ => by simp [tokens, enclosable_cons, TokenKind.isReadable]
  | float value, h => by
    have hnumber : value.isNaN = false := by rwa [Legible] at h
    simp [tokens, enclosable_cons, TokenKind.isReadable, hnumber]
  | string _, _ => by simp [tokens]
  | enum name, h => by
    rw [Legible] at h
    simp [tokens, h]
  | list items, h => by
    rw [Legible] at h
    simp [tokens, enclosable_itemTokens items h]
  | object entries, h => by
    rw [Legible] at h
    simp [tokens, enclosable_entryTokens entries h]

theorem enclosable_itemTokens :
    ∀ items : List (Value m), ItemsLegible items → Enclosable (itemTokens items)
  | [], _ => enclosable_nil
  | value :: items, h => by
    rw [ItemsLegible] at h
    simp [itemTokens, enclosable_tokens value h.1, enclosable_itemTokens items h.2]

theorem enclosable_entryTokens :
    ∀ entries : List (String × Value m), EntriesLegible entries →
      Enclosable (entryTokens entries)
  | [], _ => enclosable_nil
  | (key, value) :: entries, h => by
    rw [EntriesLegible] at h
    simp [entryTokens, h.1, enclosable_tokens value h.2.1, enclosable_entryTokens entries h.2.2]

end

theorem enclosable_defaultTokens {default : Option (Value m)} (h : DefaultLegible default) :
    Enclosable (defaultTokens default) := by
  cases default with
  | none => exact enclosable_nil
  | some value => simp [defaultTokens, enclosable_tokens value (h value rfl)]

end Value

/-! ## Arguments and directives -/

theorem Argument.enclosable_tokens {a : Argument m} (h : a.Legible) : Enclosable a.tokens := by
  simp [tokens, h.1, Value.enclosable_tokens a.value h.2]

theorem Argument.spellable_allTokens {arguments : List (Argument m)}
    (h : ∀ a ∈ arguments, a.Legible) : Spellable (allTokens arguments) :=
  spellable_enclosed (by decide) fun a ha => enclosable_tokens (h a ha)

namespace Directive

theorem enclosable_allTokens {directives : List (Directive m)}
    (h : ∀ d ∈ directives, d.Legible) : Enclosable (allTokens directives) := by
  apply enclosable_flatMap
  intro d hd
  have harguments : Enclosable (Argument.allTokens d.arguments) :=
    enclosable_enclosed (by decide) (by decide) fun a ha =>
      Argument.enclosable_tokens ((h d hd).2 a ha)
  simp [tokens, (h d hd).1, harguments]

theorem spellable_allTokens {directives : List (Directive m)}
    (h : ∀ d ∈ directives, d.Legible) : Spellable (allTokens directives) :=
  spellable_flatMap fun d hd =>
    ((Argument.spellable_allTokens (h d hd).2).name (h d hd).1).punct .atSign

end Directive

/-! ## Selections -/

namespace Selection

/-- Selections stand between their braces. -/
private theorem spellable_braced {ts : List TokenKind} (h : Spellable ts) :
    Spellable (punct .braceOpen :: ts ++ [punct .braceClose]) :=
  (h.append (spellable_nil.punct .braceClose)).punct .braceOpen

private theorem spellable_nameTokens {aliasName : Option String} {name : String}
    (halias : ∀ first, aliasName = some first → isName first = true) (hname : isName name = true) :
    Spellable (nameTokens (aliasName, name)) := by
  cases aliasName with
  | none => exact spellable_nil.name hname
  | some first => exact ((spellable_nil.name hname).punct .colon).name (halias first rfl)

mutual

theorem spellable_tokens : ∀ s : Selection, s.Legible → Spellable s.tokens
  | field aliasName name arguments directives selections, h => by
    obtain ⟨halias, hname, harguments, hdirectives, hselections⟩ := h
    have hown : Spellable (if selections.isEmpty then [] else setTokens selections) := by
      split
      · exact spellable_nil
      · exact spellable_braced (spellable_listTokens selections hselections)
    rw [tokens_field]
    exact (spellable_nameTokens halias hname).append
      ((Argument.spellable_allTokens harguments).append
        ((Directive.spellable_allTokens hdirectives).append hown))
  | spread name directives, h => by
    rw [Legible] at h
    exact ((Directive.spellable_allTokens h.2).name h.1).punct .spread
  | inline condition directives selections, h => by
    rw [Legible] at h
    obtain ⟨hcondition, hdirectives, hselections⟩ := h
    have hset := spellable_braced (spellable_listTokens selections hselections)
    have hon : isName "on" = true := by decide
    have hinline := ((((Directive.spellable_allTokens hdirectives).append hset).name
      hcondition).name hon).punct .spread
    simpa [tokens] using hinline

theorem spellable_listTokens :
    ∀ selections : List Selection, AllLegible selections → Spellable (listTokens selections)
  | [], _ => spellable_nil
  | s :: selections, h => by
    rw [AllLegible] at h
    exact (spellable_tokens s h.1).append (spellable_listTokens selections h.2)

end

theorem spellable_setTokens {selections : List Selection} (h : ∀ s ∈ selections, s.Legible) :
    Spellable (setTokens selections) :=
  spellable_braced (spellable_listTokens selections (allLegible_iff.mpr h))

end Selection

/-! ## Operations and fragments -/

theorem VariableDefinition.enclosable_tokens {d : VariableDefinition} (h : d.Legible) :
    Enclosable d.tokens := by
  obtain ⟨hname, htype, hdefault, hdirectives⟩ := h
  simp [tokens, hname, TypeRef.enclosable_tokens htype, Value.enclosable_defaultTokens hdefault,
    Directive.enclosable_allTokens hdirectives]

theorem OperationType.isName_name (t : OperationType) : isName t.name = true := by
  cases t <;> decide

namespace OperationDefinition

theorem spellable_fullTokens {d : OperationDefinition} (h : d.Legible) :
    Spellable d.fullTokens := by
  obtain ⟨hname, hvariables, hdirectives, hselections⟩ := h
  have hnames : Spellable (d.name.map TokenKind.name).toList := by
    cases hd : d.name with
    | none => exact spellable_nil
    | some name => exact spellable_nil.name (hname name hd)
  have hinputs : Spellable (enclosed .parenOpen .parenClose
      (d.variableDefinitions.map VariableDefinition.tokens)) :=
    spellable_enclosed (by decide) fun v hv =>
      VariableDefinition.enclosable_tokens (hvariables v hv)
  exact (((hnames.append hinputs).append (Directive.spellable_allTokens hdirectives)).append
    (Selection.spellable_setTokens hselections)).name d.operation.isName_name

theorem spellable_tokens {d : OperationDefinition} (h : d.Legible) (behindOpenBlock : Bool) :
    Spellable (d.tokens behindOpenBlock) := by
  unfold tokens
  split
  · exact Selection.spellable_setTokens h.2.2.2
  · exact spellable_fullTokens h

end OperationDefinition

theorem FragmentDefinition.spellable_tokens {d : FragmentDefinition} (h : d.Legible) :
    Spellable d.tokens := by
  obtain ⟨hname, hcondition, hdirectives, hselections⟩ := h
  have hbody := (Directive.spellable_allTokens hdirectives).append
    (Selection.spellable_setTokens hselections)
  have hon : isName "on" = true := by decide
  have hfragment : isName "fragment" = true := by decide
  exact (((hbody.name hcondition).name hon).name hname).name hfragment

/-! ## The type system -/

theorem InputValueDefinition.enclosable_tokens {d : InputValueDefinition} (h : d.Legible) :
    Enclosable d.tokens := by
  obtain ⟨hname, htype, hdefault, hdirectives⟩ := h
  simp [tokens, enclosable_descriptionTokens, hname, TypeRef.enclosable_tokens htype,
    Value.enclosable_defaultTokens hdefault, Directive.enclosable_allTokens hdirectives]

theorem FieldDefinition.enclosable_tokens {d : FieldDefinition} (h : d.Legible) :
    Enclosable d.tokens := by
  obtain ⟨hname, harguments, htype, hdirectives⟩ := h
  have hinputs : Enclosable (InputValueDefinition.argumentTokens d.arguments) :=
    enclosable_enclosed (by decide) (by decide) fun a ha =>
      InputValueDefinition.enclosable_tokens (harguments a ha)
  simp [tokens, enclosable_descriptionTokens, hname, hinputs, TypeRef.enclosable_tokens htype,
    Directive.enclosable_allTokens hdirectives]

theorem EnumValueDefinition.enclosable_tokens {d : EnumValueDefinition} (h : d.Legible) :
    Enclosable d.tokens := by
  simp [tokens, enclosable_descriptionTokens, h.1, Directive.enclosable_allTokens h.2]

theorem Heading.spellable_tokens (heading : Heading) : Spellable heading.tokens := by
  apply (spellable_descriptionTokens heading.description).append
  have hextend : isName "extend" = true := by decide
  split
  · exact spellable_nil.name hextend
  · exact spellable_nil

theorem SchemaDefinition.spellable_tokens {d : SchemaDefinition} (h : d.Legible) :
    Spellable d.tokens := by
  obtain ⟨hdirectives, hentries⟩ := h
  have hblock : Spellable (enclosed .braceOpen .braceClose (d.operationTypes.map entryTokens)) :=
    spellable_enclosed (by decide) fun entry hentry => by
      simp [entryTokens, hentries entry hentry, OperationType.isName_name]
  have hschema : isName "schema" = true := by decide
  have hall := d.toHeading.spellable_tokens.append
    (((Directive.spellable_allTokens hdirectives).append hblock).name hschema)
  simpa [tokens] using hall

/-- Names with a separator between each two. -/
theorem spellable_separated {separator : Punctuator} {names : List String}
    (h : ∀ name ∈ names, isName name = true) : Spellable (separated separator names) := by
  induction names with
  | nil => exact spellable_nil
  | cons name names ih =>
    obtain ⟨hname, hnames⟩ := List.forall_mem_cons.mp h
    cases names with
    | nil => exact spellable_nil.name hname
    | cons next names => exact ((ih hnames).punct separator).name hname

namespace TypeBody

theorem isName_keyword (kind : TypeKind) : isName kind.keyword = true := by
  cases kind <;> decide

theorem spellable_interfaceTokens {body : TypeBody} (h : body.Legible) :
    Spellable (interfaceTokens body.interfaces) := by
  have hnames : ∀ name ∈ body.interfaces, isName name = true := by
    cases body with
    | object _ _ | interface _ _ => exact h.1
    | scalar | union _ | enum _ | input _ => simp [interfaces]
  have himplements : isName "implements" = true := by decide
  unfold interfaceTokens
  split
  · exact spellable_nil
  · exact (spellable_separated hnames).name himplements

theorem spellable_tokens {body : TypeBody} (h : body.Legible) : Spellable body.tokens := by
  cases body with
  | scalar => exact spellable_nil
  | object _ fields | interface _ fields =>
    exact spellable_enclosed (by decide) fun d hd => FieldDefinition.enclosable_tokens (h.2 d hd)
  | union members =>
    show Spellable (memberTokens members)
    unfold memberTokens
    split
    · exact spellable_nil
    · exact (spellable_separated h).punct .equals
  | enum values =>
    exact spellable_enclosed (by decide) fun d hd => EnumValueDefinition.enclosable_tokens (h d hd)
  | input fields =>
    exact spellable_enclosed (by decide) fun d hd => InputValueDefinition.enclosable_tokens (h d hd)

end TypeBody

theorem TypeDefinition.spellable_tokens {d : TypeDefinition} (h : d.Legible) :
    Spellable d.tokens := by
  obtain ⟨hname, hdirectives, hbody⟩ := h
  have hbehind := ((TypeBody.spellable_interfaceTokens hbody).append
    (Directive.spellable_allTokens hdirectives)).append (TypeBody.spellable_tokens hbody)
  have hall := d.toHeading.spellable_tokens.append
    ((hbehind.name hname).name (TypeBody.isName_keyword d.body.kind))
  simpa [tokens] using hall

theorem DirectiveDefinition.spellable_tokens {d : DirectiveDefinition} (h : d.Legible) :
    Spellable d.tokens := by
  obtain ⟨hname, harguments⟩ := h
  have hinputs : Spellable (InputValueDefinition.argumentTokens d.arguments) :=
    spellable_enclosed (by decide) fun a ha =>
      InputValueDefinition.enclosable_tokens (harguments a ha)
  have hwords : isName "directive" = true ∧ isName "repeatable" = true ∧ isName "on" = true := by
    decide
  have hrepeatable : Spellable (if d.repeatable then [TokenKind.name "repeatable"] else []) := by
    split
    · exact spellable_nil.name hwords.2.1
    · exact spellable_nil
  have hlocations : Spellable (separated .pipe (d.locations.map DirectiveLocation.name)) :=
    spellable_separated fun name hlocation => by
      obtain ⟨location, -, rfl⟩ := List.mem_map.mp hlocation
      cases location <;> decide
  have hbehind := (hinputs.append hrepeatable).append (hlocations.name hwords.2.2)
  have hall := (spellable_descriptionTokens d.description).append
    (((hbehind.name hname).punct .atSign).name hwords.1)
  simpa [tokens] using hall

/-! ## Documents -/

namespace Definition

theorem spellable_tokens {d : Definition} (h : d.Legible) (behindOpenBlock : Bool) :
    Spellable (d.tokens behindOpenBlock) := by
  cases d with
  | operation d => exact OperationDefinition.spellable_tokens h behindOpenBlock
  | fragment d => exact FragmentDefinition.spellable_tokens h
  | schema d => exact SchemaDefinition.spellable_tokens h
  | type d => exact TypeDefinition.spellable_tokens h
  | directive d => exact DirectiveDefinition.spellable_tokens h

theorem spellable_allTokens {ds : List Definition} (h : ∀ d ∈ ds, d.Legible)
    (behindOpenBlock : Bool) : Spellable (allTokens behindOpenBlock ds) := by
  induction ds generalizing behindOpenBlock with
  | nil => exact spellable_nil
  | cons d ds ih =>
    obtain ⟨hd, hds⟩ := List.forall_mem_cons.mp h
    exact (spellable_tokens hd behindOpenBlock).append (ih hds _)

end Definition

theorem Document.spellable_tokens {d : Document} (h : d.Legible) : Spellable d.tokens :=
  Definition.spellable_allTokens h false

end GraphQLSyntax
