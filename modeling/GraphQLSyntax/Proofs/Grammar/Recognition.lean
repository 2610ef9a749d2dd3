import GraphQLSyntax.Proofs.Grammar.Derives
import GraphQLSyntax.Proofs.Predictive.Document

/-!
# The parsers recognize the grammar

With room for some levels each parser reads exactly what its production derives in as many levels.
Types, values and selections nest, so theirs is by induction on the room; all others put together
the parts of their production.

* `Definition.recognizes_parseAll`: definitions up to the end.
-/

namespace GraphQLSyntax

open GraphQLSyntax.Parser Production

variable {m : ValueMode} {room : Nat}

/-! ## Types -/

namespace TypeRef

private theorem parse_eq_ok {ts rest : List TokenKind} {type : TypeRef} :
    parse room ts = .ok (type, rest) ↔
      ∃ inner mid, parseNullable room ts = .ok (inner, mid) ∧
        ((mid = punct .bang :: rest ∧ type = nonNull inner) ∨
          (mid.head? ≠ some (punct .bang) ∧ mid = rest ∧ type = inner)) := by
  rw [parse_eq, bind_eq_ok]
  simp only [eatPunctuator, eat_bind_eq_ok, if_true, Bool.false_eq_true, if_false, pure_eq_ok]
  grind

private theorem parseNullable_eq_ok {ts rest : List TokenKind} {type : TypeRef} :
    parseNullable room ts = .ok (type, rest) ↔
      (∃ tail r inner, ts = punct .bracketOpen :: tail ∧ room = r + 1 ∧
        parse r tail = .ok (inner, punct .bracketClose :: rest) ∧ type = list inner) ∨
      (∃ text, ts = .name text :: rest ∧ type = named text) := by
  rw [parseNullable_run]
  split
  · next hopen =>
    obtain ⟨tail, rfl⟩ := List.head?_eq_some_iff.mp hopen
    rw [List.tail_cons, nested_below_eq_ok]
    simp only [bind_eq_ok, map_eq_ok, expect_eq_ok]
    grind
  · next hopen =>
    simp only [map_eq_ok, name_eq_ok]
    grind

private theorem recognizes_step (ih : ∀ r, room = r + 1 → Recognizes Derives r (parse r)) :
    Recognizes Derives room (parse room) := by
  have hnullable : Recognizes DerivesNullable room (parseNullable room) := by
    intro ts type rest
    rw [parseNullable_eq_ok]
    constructor
    · rintro (⟨tail, r, inner, rfl, rfl, hinner, rfl⟩ | ⟨text, rfl, rfl⟩)
      · exact .list ((ih r rfl).mp hinner)
      · exact .named
    · intro h
      cases h with
      | named => exact .inr ⟨_, rfl, rfl⟩
      | list inner => exact .inl ⟨_, _, _, rfl, rfl, (ih _ rfl).mpr inner, rfl⟩
  intro ts type rest
  rw [parse_eq_ok]
  constructor
  · rintro ⟨inner, mid, hinner, ⟨rfl, rfl⟩ | ⟨next, rfl, rfl⟩⟩
    · exact .nonNull (hnullable.mp hinner)
    · exact .nullable (hnullable.mp hinner) next
  · intro h
    cases h with
    | nullable inner next => exact ⟨_, _, hnullable.mpr inner, .inr ⟨next, rfl, rfl⟩⟩
    | nonNull inner => exact ⟨_, _, hnullable.mpr inner, .inl ⟨rfl, rfl⟩⟩

theorem recognizes (room : Nat) : Recognizes Derives room (parse room) := by
  induction room with
  | zero => exact recognizes_step (by simp)
  | succ room ih => exact recognizes_step fun r hr => by cases hr; exact ih

end TypeRef

/-! ## Values -/

namespace Value

theorem recognizes_parseEntry {value : Parser (Value m)} {D : Production (Value m)}
    (h : Recognizes D room value) : Recognizes (DerivesEntry D) room (parseEntry value) := by
  intro ts entry rest
  unfold parseEntry
  simp only [bind_eq_ok, name_eq_ok, expect_eq_ok, pure_eq_ok]
  constructor
  · rintro ⟨key, _, rfl, _, _, rfl, x, _, hx, rfl, rfl⟩
    exact .intro (h.mp hx)
  · rintro ⟨inner⟩
    exact ⟨_, _, rfl, (), _, rfl, _, _, h.mpr inner, rfl, rfl⟩

private theorem derives_of_token {t : TokenKind} {value : Value m} (h : ofToken? t = some value)
    (depth : Nat) (ts : List TokenKind) : Derives m depth (t :: ts) value ts := by
  cases t with
  | punctuator p => cases h
  | name text =>
    cases h
    unfold ofName
    split
    · next h => exact h ▸ .true
    · split
      · next h => exact h ▸ .false
      · split
        · next h => exact h ▸ .null
        · next h₁ h₂ h₃ => exact .enum ⟨h₁, h₂, h₃⟩
  | int value => cases h; exact .int
  | float value => cases h; exact .float
  | string value => cases h; exact .string

private theorem recognizes_step (ih : ∀ r, room = r + 1 → Recognizes (Derives m) r (parse m r)) :
    Recognizes (Derives m) room (parse m room) := by
  have hlist : ∀ r, room = r + 1 →
      Recognizes (Items .bracketClose (Derives m)) r (delimited .bracketClose (parse m r)) :=
    fun r hr => recognizes_delimited (takes_parse r) (ih r hr)
  have hobject : ∀ r, room = r + 1 → Recognizes (Items .braceClose (DerivesEntry (Derives m))) r
      (delimited .braceClose (parseEntry (parse m r))) := fun r hr =>
    recognizes_delimited (takes_parseEntry ((takes_parse r).mono (by omega)))
      (recognizes_parseEntry (ih r hr))
  intro ts value rest
  constructor
  · intro hx
    rcases ts with _ | ⟨t, ts⟩
    · rw [parse_of_not_begins (by simp)] at hx
      cases hx
    -- The first token alone decides which of the four forms is read.
    by_cases ht : Begins m t
    · rcases ht with rfl | rfl | ⟨rfl, rfl⟩ | ⟨x, ht⟩
      · rw [parse_bracketOpen, nested_below_eq_ok] at hx
        obtain ⟨r, rfl, hx⟩ := hx
        obtain ⟨items, hitems, rfl⟩ := map_eq_ok.mp hx
        exact .list ((hlist r rfl).mp hitems)
      · rw [parse_braceOpen, nested_below_eq_ok] at hx
        obtain ⟨r, rfl, hx⟩ := hx
        obtain ⟨pairs, hpairs, rfl⟩ := map_eq_ok.mp hx
        exact .object ((hobject r rfl).mp hpairs)
      · rw [parse_dollar, map_eq_ok] at hx
        obtain ⟨name, hname, rfl⟩ := hx
        obtain rfl := name_eq_ok.mp hname
        exact .varRef rfl
      · rw [parse_of_token ht] at hx
        cases hx
        exact derives_of_token ht room _
    · rw [parse_of_not_begins (by simpa using ht)] at hx
      cases hx
  · intro hx
    cases hx with
    | varRef allowed =>
      cases m with
      | const => cases allowed
      | dynamic =>
        rw [parse_dollar]
        exact map_eq_ok.mpr ⟨_, name_eq_ok.mpr rfl, rfl⟩
    | list inner =>
      rw [parse_bracketOpen, nested_below_succ]
      exact map_eq_ok.mpr ⟨_, (hlist _ rfl).mpr inner, rfl⟩
    | object inner =>
      rw [parse_braceOpen, nested_below_succ]
      exact map_eq_ok.mpr ⟨_, (hobject _ rfl).mpr inner, rfl⟩
    | enum unreserved =>
      refine parse_of_token ?_ _ _
      simp [ofToken?, ofName, unreserved]
    | _ => exact parse_of_token rfl _ _

theorem recognizes (room : Nat) : Recognizes (Derives m) room (parse m room) := by
  induction room with
  | zero => exact recognizes_step (by simp)
  | succ room ih => exact recognizes_step fun r hr => by cases hr; exact ih

theorem recognizes_parseDefault (room : Nat) :
    Recognizes (Behind (punct .equals) (Derives .const)) room (parseDefault room) :=
  recognizes_behind (punct .equals) (recognizes room)

end Value

/-! ## Arguments and directives -/

namespace Argument

theorem recognizes (room : Nat) : Recognizes (Derives m) room (parse m room) := by
  intro ts a rest
  unfold parse
  simp only [bind_eq_ok, pure_eq_ok]
  constructor
  · rintro ⟨entry, _, h, rfl, rfl⟩
    cases (Value.recognizes_parseEntry (Value.recognizes room)).mp h with
    | intro inner => exact .intro inner
  · rintro ⟨inner⟩
    exact ⟨_, _, (Value.recognizes_parseEntry (Value.recognizes room)).mpr (.intro inner), rfl, rfl⟩

theorem recognizes_parseAll (room : Nat) :
    Recognizes (OptionalList .parenOpen .parenClose (Derives m)) room (parseAll m room) :=
  recognizes_optionalList _ (takes_parse room) (recognizes room)

end Argument

namespace Directive

theorem recognizes (room : Nat) : Recognizes (Derives m) room (parse m room) := by
  intro ts d rest
  unfold parse
  simp only [bind_eq_ok, name_eq_ok, Argument.recognizes_parseAll room, pure_eq_ok]
  constructor
  · rintro ⟨name, _, rfl, arguments, _, h, rfl, rfl⟩
    exact .intro h
  · rintro ⟨inner⟩
    exact ⟨_, _, rfl, _, _, inner, rfl, rfl⟩

theorem recognizes_parseAll (room : Nat) : Recognizes (AllDerive m) room (parseAll m room) :=
  recognizes_each ((takes_parse room).mono (Nat.zero_le 1)) (recognizes room)

end Directive

/-! ## Selections -/

namespace Selection

private theorem recognizes_parseAlias :
    ∀ {ts names rest}, (∃ first mid, name ts = .ok (first, mid) ∧
      parseAlias first mid = .ok (names, rest)) ↔ DerivesNames room ts names rest := by
  intro ts names rest
  simp only [name_eq_ok, parseAlias_run]
  constructor
  · rintro ⟨first, mid, rfl, h⟩
    split at h
    · next hcolon =>
      obtain ⟨tail, rfl⟩ := List.head?_eq_some_iff.mp hcolon
      obtain ⟨text, htext, rfl⟩ := map_eq_ok.mp h
      obtain rfl := name_eq_ok.mp htext
      exact .aliased
    · next hcolon =>
      cases h
      exact .plain hcolon
  · intro h
    cases h with
    | plain next => exact ⟨_, _, rfl, if_neg next⟩
    | aliased =>
      refine ⟨_, _, rfl, ?_⟩
      rw [if_pos List.head?_cons]
      exact map_eq_ok.mpr ⟨_, name_eq_ok.mpr rfl, rfl⟩

/-- A set of selections, if its items are recognized one level further inside. -/
private theorem recognizes_set
    (ih : ∀ r, room = r + 1 → Recognizes Derives r (parseOne r (parseSet r))) :
    Recognizes (DerivesSet Derives) room (parseSet room) := by
  intro ts selections rest
  have htakes : ∀ r, Takes 1 (parseOne r (parseSet r)) :=
    fun r => Predictive.takes Selection.predictive r
  rw [parseSet_eq, bind_eq_ok]
  simp only [expect_eq_ok, nested_below_eq_ok]
  constructor
  · rintro ⟨_, mid, rfl, r, rfl, h⟩
    obtain ⟨items, nonempty⟩ := (delimitedNonempty_eq_ok (htakes r) (ih r rfl)).mp h
    exact .intro items nonempty
  · rintro ⟨items, nonempty⟩
    exact ⟨(), _, rfl, _, rfl,
      (delimitedNonempty_eq_ok (htakes _) (ih _ rfl)).mpr ⟨items, nonempty⟩⟩

private theorem recognizes_parseOwn {set : Parser (List Selection)}
    (h : Recognizes (DerivesSet Derives) room set) :
    Recognizes (DerivesOwn Derives) room (parseOwn set) := by
  intro ts selections rest
  rw [parseOwn_run]
  constructor
  · intro hx
    split at hx
    · next hbrace =>
      obtain ⟨tail, rfl⟩ := List.head?_eq_some_iff.mp hbrace
      exact .present (h.mp hx)
    · next hbrace =>
      cases hx
      exact .absent hbrace
  · intro hx
    cases hx with
    | present set =>
      rw [if_pos List.head?_cons]
      exact h.mpr set
    | absent next => rw [if_neg next]

private theorem recognizes_parseField {set : Parser (List Selection)}
    (h : Recognizes (DerivesSet Derives) room set) {ts rest : List TokenKind} {s : Selection} :
    parseField room set ts = .ok (s, rest) ↔
      ∃ names ts₁ arguments ts₂ directives ts₃ selections,
        DerivesNames room ts names ts₁ ∧
        OptionalList .parenOpen .parenClose (Argument.Derives .dynamic) room ts₁ arguments ts₂ ∧
        Directive.AllDerive .dynamic room ts₂ directives ts₃ ∧
        DerivesOwn Derives room ts₃ selections rest ∧
        s = field names.1 names.2 arguments directives selections := by
  rw [parseField_eq]
  simp only [bind_eq_ok, pure_eq_ok, Argument.recognizes_parseAll room,
    Directive.recognizes_parseAll room, recognizes_parseOwn h, ← recognizes_parseAlias]
  constructor
  · rintro ⟨first, mid, hfirst, names, ts₁, hnames, arguments, ts₂, harguments, directives, ts₃,
      hdirectives, selections, _, hselections, rfl, rfl⟩
    exact ⟨names, ts₁, arguments, ts₂, directives, ts₃, selections, ⟨first, mid, hfirst, hnames⟩,
      harguments, hdirectives, hselections, rfl⟩
  · rintro ⟨names, ts₁, arguments, ts₂, directives, ts₃, selections, ⟨first, mid, hfirst, hnames⟩,
      harguments, hdirectives, hselections, rfl⟩
    exact ⟨first, mid, hfirst, names, ts₁, hnames, arguments, ts₂, harguments, directives, ts₃,
      hdirectives, selections, _, hselections, rfl, rfl⟩

private theorem derives_of_parseSpread {set : Parser (List Selection)}
    (h : Recognizes (DerivesSet Derives) room set) {ts rest : List TokenKind} {s : Selection}
    (hx : parseSpread room set ts = .ok (s, rest)) : Derives room (punct .spread :: ts) s rest := by
  by_cases hname : ∃ text, ts.head? = some (.name text)
  · obtain ⟨text, htext⟩ := hname
    obtain ⟨tail, rfl⟩ := List.head?_eq_some_iff.mp htext
    by_cases hon : text = "on"
    · subst hon
      rw [parseSpread_on] at hx
      simp only [bind_eq_ok, name_eq_ok, pure_eq_ok] at hx
      obtain ⟨condition, _, rfl, directives, _, hdirectives, selections, _, hselections, rfl,
        rfl⟩ := hx
      exact .inline ((Directive.recognizes_parseAll room).mp hdirectives) (h.mp hselections)
    · rw [parseSpread_name room set hon, map_eq_ok] at hx
      obtain ⟨directives, hdirectives, rfl⟩ := hx
      exact .spread hon ((Directive.recognizes_parseAll room).mp hdirectives)
  · rw [parseSpread_of_not_name (by simpa using hname)] at hx
    cases hx

private theorem recognizes_parseOne {set : Parser (List Selection)}
    (h : Recognizes (DerivesSet Derives) room set) :
    Recognizes Derives room (parseOne room set) := by
  intro ts s rest
  rw [parseOne_run]
  constructor
  · intro hx
    split at hx
    · next hspread =>
      obtain ⟨tail, rfl⟩ := List.head?_eq_some_iff.mp hspread
      exact derives_of_parseSpread h hx
    · obtain ⟨names, _, _, _, _, _, _, hnames, harguments, hdirectives, hselections, rfl⟩ :=
        (recognizes_parseField h).mp hx
      exact .field hnames harguments hdirectives hselections
  · intro hx
    cases hx with
    | field hnames harguments hdirectives hselections =>
      rw [if_neg]
      · exact (recognizes_parseField h).mpr ⟨_, _, _, _, _, _, _, hnames, harguments, hdirectives,
          hselections, rfl⟩
      · cases hnames <;> simp
    | spread notOn hdirectives =>
      rw [if_pos List.head?_cons, List.tail_cons, parseSpread_name room set notOn]
      exact map_eq_ok.mpr ⟨_, (Directive.recognizes_parseAll room).mpr hdirectives, rfl⟩
    | inline hdirectives hselections =>
      rw [if_pos List.head?_cons, List.tail_cons, parseSpread_on]
      simp only [bind_eq_ok, name_eq_ok, pure_eq_ok]
      exact ⟨_, _, rfl, _, _, (Directive.recognizes_parseAll room).mpr hdirectives, _, _,
        h.mpr hselections, rfl, rfl⟩

private theorem recognizes_step
    (ih : ∀ r, room = r + 1 → Recognizes Derives r (parseOne r (parseSet r))) :
    Recognizes Derives room (parseOne room (parseSet room)) :=
  recognizes_parseOne (recognizes_set ih)

theorem recognizes (room : Nat) : Recognizes Derives room (parseOne room (parseSet room)) := by
  induction room with
  | zero => exact recognizes_step (by simp)
  | succ room ih => exact recognizes_step fun r hr => by cases hr; exact ih

theorem recognizes_parseSet (room : Nat) : Recognizes (DerivesSet Derives) room (parseSet room) :=
  recognizes_set fun r _ => recognizes r

end Selection

/-! ## Operations and fragments -/

namespace VariableDefinition

theorem recognizes (room : Nat) : Recognizes Derives room (parse room) := by
  intro ts d rest
  unfold parse
  simp only [bind_eq_ok, expect_eq_ok, name_eq_ok, TypeRef.recognizes room,
    Value.recognizes_parseDefault room, Directive.recognizes_parseAll room, pure_eq_ok]
  constructor
  · rintro ⟨_, _, rfl, _, _, rfl, _, _, rfl, _, _, htype, _, _, hdefault, _, _, hdirectives, rfl,
      rfl⟩
    exact .intro htype hdefault hdirectives
  · rintro ⟨htype, hdefault, hdirectives⟩
    exact ⟨(), _, rfl, _, _, rfl, (), _, rfl, _, _, htype, _, _, hdefault, _, _, hdirectives, rfl,
      rfl⟩

end VariableDefinition

namespace OperationDefinition

private theorem recognizes_variables (room : Nat) :
    Recognizes (OptionalList .parenOpen .parenClose VariableDefinition.Derives) room
      (optionalList .variableDefinitions .parenOpen .parenClose (VariableDefinition.parse room)) :=
  recognizes_optionalList _ (VariableDefinition.takes_parse room)
    (VariableDefinition.recognizes room)

theorem recognizes (room : Nat) (operation : OperationType) (t : TokenKind) :
    Recognizes (Derives operation) room fun ts => parse room operation (t :: ts) := by
  intro ts d rest
  unfold parse
  simp only [skip_bind_run, List.tail_cons, bind_eq_ok, recognizes_name? room,
    recognizes_variables room,
    Directive.recognizes_parseAll room, Selection.recognizes_parseSet room, pure_eq_ok]
  constructor
  · rintro ⟨_, _, hname, _, _, hvariableDefinitions, _, _, hdirectives, _, _, hselections, rfl, rfl⟩
    exact .intro hname hvariableDefinitions hdirectives hselections
  · rintro ⟨hname, hvariableDefinitions, hdirectives, hselections⟩
    exact ⟨_, _, hname, _, _, hvariableDefinitions, _, _, hdirectives, _, _, hselections, rfl, rfl⟩

end OperationDefinition

namespace FragmentDefinition

theorem recognizes (room : Nat) (t : TokenKind) :
    Recognizes Derives room fun ts => parse room (t :: ts) := by
  intro ts d rest
  show parse room (t :: ts) = _ ↔ _
  rw [parse_run]
  constructor
  · intro hx
    split at hx
    · cases hx
    · next hon =>
      simp only [bind_eq_ok, name_eq_ok, expectKeyword_eq_ok, Directive.recognizes_parseAll room,
        Selection.recognizes_parseSet room, pure_eq_ok] at hx
      obtain ⟨name, _, rfl, _, _, rfl, _, _, rfl, _, _, hdirectives, _, _, hselections, rfl,
        rfl⟩ := hx
      exact .intro (by simpa using hon) hdirectives hselections
  · rintro ⟨notOn, hdirectives, hselections⟩
    rw [if_neg (by simpa using notOn)]
    simp only [bind_eq_ok, name_eq_ok, expectKeyword_eq_ok, Directive.recognizes_parseAll room,
      Selection.recognizes_parseSet room, pure_eq_ok]
    exact ⟨_, _, rfl, (), _, rfl, _, _, rfl, _, _, hdirectives, _, _, hselections, rfl, rfl⟩

end FragmentDefinition

/-! ## The type system -/

namespace InputValueDefinition

theorem recognizes (room : Nat) : Recognizes Derives room (parse room) := by
  intro ts d rest
  unfold parse
  simp only [bind_eq_ok, recognizes_string? room, name_eq_ok, expect_eq_ok,
    TypeRef.recognizes room, Value.recognizes_parseDefault room,
    Directive.recognizes_parseAll room, pure_eq_ok]
  constructor
  · rintro ⟨_, _, hdescription, _, _, rfl, _, _, rfl, _, _, htype, _, _, hdefault, _, _,
      hdirectives, rfl, rfl⟩
    exact .intro hdescription htype hdefault hdirectives
  · rintro ⟨hdescription, htype, hdefault, hdirectives⟩
    exact ⟨_, _, hdescription, _, _, rfl, (), _, rfl, _, _, htype, _, _, hdefault, _, _,
      hdirectives,
      rfl, rfl⟩

theorem recognizes_parseArguments (room : Nat) :
    Recognizes ArgumentsDerive room (parseArguments room) :=
  recognizes_optionalList _ (takes_parse room) (recognizes room)

end InputValueDefinition

namespace FieldDefinition

theorem recognizes (room : Nat) : Recognizes Derives room (parse room) := by
  intro ts d rest
  unfold parse
  simp only [bind_eq_ok, recognizes_string? room, name_eq_ok, expect_eq_ok,
    InputValueDefinition.recognizes_parseArguments room, TypeRef.recognizes room,
    Directive.recognizes_parseAll room, pure_eq_ok]
  constructor
  · rintro ⟨_, _, hdescription, _, _, rfl, _, _, harguments, _, _, rfl, _, _, htype, _, _,
      hdirectives, rfl, rfl⟩
    exact .intro hdescription harguments htype hdirectives
  · rintro ⟨hdescription, harguments, htype, hdirectives⟩
    exact ⟨_, _, hdescription, _, _, rfl, _, _, harguments, (), _, rfl, _, _, htype, _, _,
      hdirectives,
      rfl, rfl⟩

end FieldDefinition

namespace EnumValueDefinition

theorem recognizes (room : Nat) : Recognizes Derives room (parse room) := by
  intro ts d rest
  unfold parse
  simp only [bind_eq_ok, recognizes_string? room, name_eq_ok, Directive.recognizes_parseAll room,
    pure_eq_ok]
  constructor
  · rintro ⟨_, _, hdescription, _, _, rfl, _, _, hdirectives, rfl, rfl⟩
    exact .intro hdescription hdirectives
  · rintro ⟨hdescription, hdirectives⟩
    exact ⟨_, _, hdescription, _, _, rfl, _, _, hdirectives, rfl, rfl⟩

end EnumValueDefinition

namespace SchemaDefinition

theorem recognizes_parseEntry (room : Nat) : Recognizes DerivesEntry room parseEntry := by
  intro ts entry rest
  unfold parseEntry
  rw [parseOperationType_eq]
  simp only [bind_eq_ok, lookedUp_eq_ok, expect_eq_ok, name_eq_ok, pure_eq_ok]
  constructor
  · rintro ⟨operation, _, ⟨text, rfl, htext⟩, _, _, rfl, name, _, rfl, rfl, rfl⟩
    rw [← OperationType.name_of_ofName? htext]
    exact .intro operation
  · rintro ⟨operation⟩
    exact ⟨operation, _, ⟨_, rfl, operation.ofName?_name⟩, (), _, rfl, _, _, rfl, rfl, rfl⟩

private theorem recognizes_parseParts {room : Nat} {ts rest : List TokenKind}
    {parts : List (Directive .const) × List (OperationType × String)} :
    parseParts room ts = .ok (parts, rest) ↔
      ∃ mid, Directive.AllDerive .const room ts parts.1 mid ∧
        OptionalList .braceOpen .braceClose DerivesEntry room mid parts.2 rest := by
  unfold parseParts
  simp only [bind_eq_ok, Directive.recognizes_parseAll room, pure_eq_ok,
    recognizes_optionalList .operationTypes takes_parseEntry (recognizes_parseEntry room)]
  constructor
  · rintro ⟨_, mid, hdirectives, _, _, hentries, rfl, rfl⟩
    exact ⟨mid, hdirectives, hentries⟩
  · rintro ⟨mid, hdirectives, hentries⟩
    exact ⟨_, mid, hdirectives, _, _, hentries, rfl, rfl⟩

private theorem emptyBody?_eq_none_iff
    (parts : List (Directive .const) × List (OperationType × String)) :
    emptyBody? parts = none ↔ parts.1 ≠ [] ∨ parts.2 ≠ [] := by
  simp [emptyBody?, Classical.or_iff_not_imp_left]

theorem recognizes (room : Nat) (heading : Heading) (t : TokenKind) :
    Recognizes (Derives heading) room fun ts => parse room heading (t :: ts) := by
  intro ts d rest
  show parse room heading (t :: ts) = _ ↔ _
  rw [parse_run]
  refine checked_eq_ok.trans ?_
  simp only [recognizes_parseParts]
  constructor
  · rintro ⟨parts, ⟨mid, hdirectives, hentries⟩, hbody, rfl⟩
    exact .intro hdirectives hentries ((emptyBody?_eq_none_iff parts).mp hbody)
  · rintro (⟨hdirectives, hentries, nonempty⟩ : Derives _ _ _ _ _)
    exact ⟨(_, _), ⟨_, hdirectives, hentries⟩, (emptyBody?_eq_none_iff _).mpr nonempty, rfl⟩

end SchemaDefinition

namespace TypeBody

private theorem recognizes_names (separator : Punctuator) (room : Nat) :
    Recognizes (Separated separator Name) room (Parser.separated separator name) :=
  recognizes_separated (takes_name.mono (by omega)) (recognizes_name room)

private theorem recognizes_parseInterfaces (room : Nat) :
    Recognizes DerivesInterfaces room parseInterfaces := by
  intro ts names rest
  unfold parseInterfaces
  rw [eatKeyword, eat_bind_eq_ok]
  simp only [if_true, Bool.false_eq_true, if_false, pure_eq_ok]
  constructor
  · rintro (⟨tail, rfl, h⟩ | ⟨next, rfl, rfl⟩)
    · exact .present ((recognizes_names _ room).mp h)
    · exact .absent next
  · rintro (inner | next)
    · exact .inl ⟨_, rfl, (recognizes_names _ room).mpr inner⟩
    · exact .inr ⟨next, rfl, rfl⟩

private theorem recognizes_parseMembers (room : Nat) :
    Recognizes DerivesMembers room parseMembers := by
  intro ts names rest
  unfold parseMembers
  rw [eatPunctuator, eat_bind_eq_ok]
  simp only [if_true, Bool.false_eq_true, if_false, pure_eq_ok]
  constructor
  · rintro (⟨tail, rfl, h⟩ | ⟨next, rfl, rfl⟩)
    · exact .present ((recognizes_names _ room).mp h)
    · exact .absent next
  · rintro (inner | next)
    · exact .inl ⟨_, rfl, (recognizes_names _ room).mpr inner⟩
    · exact .inr ⟨next, rfl, rfl⟩

private theorem recognizes_fields (room : Nat) :
    Recognizes (BlockDerives FieldDefinition.Derives) room
      (parseBlock .fields (FieldDefinition.parse room)) :=
  recognizes_optionalList _ (FieldDefinition.takes_parse room)
    (FieldDefinition.recognizes room)

private theorem recognizes_values (room : Nat) :
    Recognizes (BlockDerives EnumValueDefinition.Derives) room
      (parseBlock .enumValues (EnumValueDefinition.parse room)) :=
  recognizes_optionalList _ (EnumValueDefinition.takes_parse room)
    (EnumValueDefinition.recognizes room)

private theorem recognizes_inputFields (room : Nat) :
    Recognizes (BlockDerives InputValueDefinition.Derives) room
      (parseBlock .inputFields (InputValueDefinition.parse room)) :=
  recognizes_optionalList _ (InputValueDefinition.takes_parse room)
    (InputValueDefinition.recognizes room)

theorem recognizes (room : Nat) (kind : TypeKind) :
    Recognizes (Derives kind) room (parse room kind) := by
  intro ts parts rest
  unfold parse
  cases kind <;>
    simp only [bind_eq_ok, recognizes_parseInterfaces room, recognizes_parseMembers room,
      Directive.recognizes_parseAll room, recognizes_fields room, recognizes_values room,
      recognizes_inputFields room, pure_eq_ok]
  case scalar =>
    constructor
    · rintro ⟨_, _, hdirectives, rfl, rfl⟩
      exact .scalar hdirectives
    · intro h
      cases h with
      | scalar hdirectives => exact ⟨_, _, hdirectives, rfl, rfl⟩
  case object =>
    constructor
    · rintro ⟨_, _, hinterfaces, _, _, hdirectives, _, _, hfields, rfl, rfl⟩
      exact .object hinterfaces hdirectives hfields
    · intro h
      cases h with
      | object hinterfaces hdirectives hfields =>
        exact ⟨_, _, hinterfaces, _, _, hdirectives, _, _, hfields, rfl, rfl⟩
  case interface =>
    constructor
    · rintro ⟨_, _, hinterfaces, _, _, hdirectives, _, _, hfields, rfl, rfl⟩
      exact .interface hinterfaces hdirectives hfields
    · intro h
      cases h with
      | interface hinterfaces hdirectives hfields =>
        exact ⟨_, _, hinterfaces, _, _, hdirectives, _, _, hfields, rfl, rfl⟩
  case union =>
    constructor
    · rintro ⟨_, _, hdirectives, _, _, hmembers, rfl, rfl⟩
      exact .union hdirectives hmembers
    · intro h
      cases h with
      | union hdirectives hmembers => exact ⟨_, _, hdirectives, _, _, hmembers, rfl, rfl⟩
  case enum =>
    constructor
    · rintro ⟨_, _, hdirectives, _, _, hvalues, rfl, rfl⟩
      exact .enum hdirectives hvalues
    · intro h
      cases h with
      | enum hdirectives hvalues => exact ⟨_, _, hdirectives, _, _, hvalues, rfl, rfl⟩
  case input =>
    constructor
    · rintro ⟨_, _, hdirectives, _, _, hfields, rfl, rfl⟩
      exact .input hdirectives hfields
    · intro h
      cases h with
      | input hdirectives hfields => exact ⟨_, _, hdirectives, _, _, hfields, rfl, rfl⟩

end TypeBody

namespace TypeDefinition

theorem emptyExtension?_eq_none_iff (d : TypeDefinition) :
    d.emptyExtension? = none ↔ d.AddsIfExtension := by
  obtain ⟨⟨description, isExtension⟩, name, directives, body⟩ := d
  cases isExtension <;> cases body <;>
    simp [emptyExtension?, AddsIfExtension, TypeBody.interfaces, TypeBody.lacksBlock,
      TypeBody.kind, Classical.or_iff_not_imp_left]
  grind

theorem recognizes (room : Nat) (heading : Heading) (kind : TypeKind) (t : TokenKind) :
    Recognizes (Derives heading kind) room fun ts => parse room heading kind (t :: ts) := by
  intro ts d rest
  show parse room heading kind (t :: ts) = _ ↔ _
  rw [parse_run, bind_eq_ok]
  simp only [name_eq_ok]
  constructor
  · rintro ⟨name, _, rfl, hx⟩
    obtain ⟨parts, hparts, hbody, rfl⟩ := checked_eq_ok.mp hx
    exact .intro ((TypeBody.recognizes room kind).mp hparts)
      ((emptyExtension?_eq_none_iff _).mp (Option.map_eq_none_iff.mp hbody))
  · rintro ⟨inner, adds⟩
    refine ⟨_, _, rfl, checked_eq_ok.mpr ⟨(_, _), (TypeBody.recognizes room kind).mpr inner,
      ?_, rfl⟩⟩
    exact Option.map_eq_none_iff.mpr ((emptyExtension?_eq_none_iff _).mpr adds)

end TypeDefinition

namespace DirectiveDefinition

private theorem recognizes_parseLocation (room : Nat) :
    Recognizes DerivesLocation room parseLocation := by
  intro ts place rest
  rw [parseLocation_eq, lookedUp_eq_ok]
  constructor
  · rintro ⟨text, rfl, htext⟩
    rw [← DirectiveLocation.name_of_ofName? htext]
    exact .intro place
  · rintro ⟨place⟩
    exact ⟨_, rfl, place.ofName?_name⟩

private theorem recognizes_locations (room : Nat) :
    Recognizes (Separated .pipe DerivesLocation) room (Parser.separated .pipe parseLocation) :=
  recognizes_separated (takes_parseLocation.mono (Nat.zero_le 1))
    (recognizes_parseLocation room)

theorem recognizes (room : Nat) (description : Option String) (t : TokenKind) :
    Recognizes (Derives description) room fun ts => parse room description (t :: ts) := by
  intro ts d rest
  unfold parse
  simp only [skip_bind_run, List.tail_cons, bind_eq_ok, expect_eq_ok, name_eq_ok,
    InputValueDefinition.recognizes_parseArguments room, eatKeyword, recognizes_eat _ room,
    expectKeyword_eq_ok, recognizes_locations room, pure_eq_ok]
  constructor
  · rintro ⟨_, _, rfl, _, _, rfl, _, _, harguments, _, _, hrepeatable, _, _, rfl, _, _, hlocations,
      rfl, rfl⟩
    exact .intro harguments hrepeatable hlocations
  · rintro ⟨harguments, hrepeatable, hlocations⟩
    exact ⟨(), _, rfl, _, _, rfl, _, _, harguments, _, _, hrepeatable, (), _, rfl, _, _, hlocations,
      rfl, rfl⟩

end DirectiveDefinition

/-! ## Documents -/

namespace Heading

theorem recognizes (room : Nat) : Recognizes Derives room parse := by
  intro ts h rest
  unfold parse
  simp only [bind_eq_ok, recognizes_string? room, eatKeyword, recognizes_eat _ room, pure_eq_ok]
  constructor
  · rintro ⟨_, _, hdescription, _, _, hextension, rfl, rfl⟩
    exact .intro hdescription hextension
  · rintro ⟨hdescription, hextension⟩
    exact ⟨_, _, hdescription, _, _, hextension, rfl, rfl⟩

end Heading

namespace Definition

/-- The word of a keyword is read as the keyword. -/
private theorem parseBody_keyword {heading : Heading} (k : DefinitionKeyword) (h : heading.Allows k)
    (room : Nat) (ts : List TokenKind) :
    parseBody room heading (.name k.name :: ts) = parseOf room heading k (.name k.name :: ts) :=
  parseBody_of_keyword (DefinitionKeyword.ofName?_name k) h room ts

private theorem recognizes_parseBody (room : Nat) (heading : Heading) :
    Recognizes (DerivesKeyword heading) room (parseBody room heading) := by
  intro ts d rest
  constructor
  · intro hx
    rcases ts with _ | ⟨_ | keyword | _ | _ | _, ts⟩
    case cons.name =>
      -- Behind a description or `extend` neither an operation nor a fragment may stand.
      by_cases hk : ∃ k, DefinitionKeyword.ofName? keyword = some k ∧ heading.Allows k
      · obtain ⟨k, hk, hallows⟩ := hk
        rw [parseBody_of_keyword hk hallows] at hx
        obtain rfl := DefinitionKeyword.name_of_ofName? hk
        obtain ⟨description, isExtension⟩ := heading
        cases k with
        | operation operationType =>
          obtain ⟨rfl, rfl⟩ := hallows
          obtain ⟨d, hd, rfl⟩ := map_eq_ok.mp hx
          exact .operation operationType ((OperationDefinition.recognizes _ _ _).mp hd)
        | fragment =>
          obtain ⟨rfl, rfl⟩ := hallows
          obtain ⟨d, hd, rfl⟩ := map_eq_ok.mp hx
          exact .fragment ((FragmentDefinition.recognizes _ _).mp hd)
        | schema =>
          obtain ⟨d, hd, rfl⟩ := map_eq_ok.mp hx
          exact .schema ((SchemaDefinition.recognizes _ _ _).mp hd)
        | directive =>
          obtain rfl : isExtension = false := hallows
          obtain ⟨d, hd, rfl⟩ := map_eq_ok.mp hx
          exact .directive ((DirectiveDefinition.recognizes _ _ _).mp hd)
        | type kind =>
          obtain ⟨d, hd, rfl⟩ := map_eq_ok.mp hx
          exact .type kind ((TypeDefinition.recognizes _ _ _ _).mp hd)
      · rw [parseBody_of_not_allowed (by simpa using hk)] at hx
        cases hx
    all_goals cases hx
  · intro hx
    cases hx with
    | operation operationType inner =>
      refine (parseBody_keyword (.operation operationType) ⟨rfl, rfl⟩ room _).trans ?_
      exact map_eq_ok.mpr ⟨_, (OperationDefinition.recognizes _ _ _).mpr inner, rfl⟩
    | fragment inner =>
      refine (parseBody_keyword .fragment ⟨rfl, rfl⟩ room _).trans ?_
      exact map_eq_ok.mpr ⟨_, (FragmentDefinition.recognizes _ _).mpr inner, rfl⟩
    | schema inner =>
      refine (parseBody_keyword .schema trivial room _).trans ?_
      exact map_eq_ok.mpr ⟨_, (SchemaDefinition.recognizes _ _ _).mpr inner, rfl⟩
    | @directive description _ _ _ _ inner =>
      have hallows : Heading.Allows ⟨description, false⟩ .directive := rfl
      refine (parseBody_keyword .directive hallows room _).trans ?_
      exact map_eq_ok.mpr ⟨_, (DirectiveDefinition.recognizes _ _ _).mpr inner, rfl⟩
    | type kind inner =>
      refine (parseBody_keyword (.type kind) trivial room _).trans ?_
      exact map_eq_ok.mpr ⟨_, (TypeDefinition.recognizes _ _ _ _).mpr inner, rfl⟩

theorem recognizes (room : Nat) : Recognizes Derives room (parse room) := by
  intro ts d rest
  rw [parse_run]
  constructor
  · intro hx
    split at hx
    · next hbrace =>
      obtain ⟨tail, rfl⟩ := List.head?_eq_some_iff.mp hbrace
      obtain ⟨selections, hselections, rfl⟩ := map_eq_ok.mp hx
      exact .shorthand ((Selection.recognizes_parseSet room).mp hselections)
    · next hbrace =>
      obtain ⟨heading, mid, hheading, hx⟩ := bind_eq_ok.mp hx
      exact .keyword hbrace ((Heading.recognizes room).mp hheading)
        ((recognizes_parseBody room heading).mp hx)
  · intro hx
    cases hx with
    | shorthand inner =>
      rw [if_pos List.head?_cons]
      exact map_eq_ok.mpr ⟨_, (Selection.recognizes_parseSet room).mpr inner, rfl⟩
    | keyword next hheading inner =>
      rw [if_neg next]
      exact bind_eq_ok.mpr ⟨_, _, (Heading.recognizes room).mpr hheading,
        (recognizes_parseBody room _).mpr inner⟩

theorem recognizes_parseAll (room : Nat) : Recognizes AllDerive room (parseAll room) := by
  intro ts ds rest
  constructor
  · intro hx
    -- Each definition takes a token, so what follows it is shorter.
    induction hn : ts.length using Nat.strongRecOn generalizing ts ds with
    | ind n ih =>
      rw [parseAll_run room (takes_parse room)] at hx
      split at hx
      · next hnil =>
        cases hx
        subst hnil
        exact .nil
      · obtain ⟨d, mid, hfirst, hx⟩ := bind_eq_ok.mp hx
        obtain ⟨ds, hothers, rfl⟩ := map_eq_ok.mp hx
        have hlt := takes_parse room _ _ _ hfirst
        have hds := ih mid.length (by omega) hothers rfl
        have hrest : rest = [] := by cases hds <;> rfl
        subst hrest
        exact .cons ((recognizes room).mp hfirst) hds
  · intro hx
    induction hx with
    | nil => rw [parseAll_run _ (takes_parse _), if_pos rfl]
    | @cons depth ts d mid ds first others ih =>
      have hfirst := (recognizes _).mpr first
      have hne : ts ≠ [] := fun hnil => by
        have hlt := takes_parse _ _ _ _ hfirst
        simp [hnil] at hlt
      rw [parseAll_run _ (takes_parse _), if_neg hne]
      exact bind_eq_ok.mpr ⟨_, _, hfirst, map_eq_ok.mpr ⟨_, ih, rfl⟩⟩

end Definition

end GraphQLSyntax
