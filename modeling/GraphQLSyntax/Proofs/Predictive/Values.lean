import GraphQLSyntax.Proofs.Parser.Blocks
import GraphQLSyntax.Proofs.Parser.Productions

/-!
# Predictive parsers of types, values and directives

* `TypeRef.predictive`, `Value.predictive`: by induction on the room, since both nest.
* `Argument.predictive_parseAll`, `Directive.predictive_parseAll`: what stands behind a name.
* `InputValueDefinition.predictive`: the definition of an argument or of an input field.
-/

namespace GraphQLSyntax

open GraphQLSyntax.Parser

variable {m : ValueMode} {room : Nat}

/-! ## Types -/

namespace TypeRef

/-- A name is a type. -/
private theorem satisfiable :
    Satisfiable (.taking (· = .name "a") (· = punct .bang)) parse := by
  refine ⟨[.name "a"], .named "a", by simp; decide, by simp, by simp, fun room rest _ ha => ?_⟩
  have hbang : rest.head? ≠ some (punct .bang) := ha.of_head_ne rfl
  rw [parse_eq, List.singleton_append]
  refine (bind_of_ok (p := parseNullable room) (x := named "a") ?_ _).trans
    (eat_bind_of_ne hbang _)
  rw [parseNullable_run, if_neg (by simp)]
  exact map_eq_ok.mpr ⟨"a", name_eq_ok.mpr rfl, rfl⟩

private theorem predictive_step
    (ih : ∀ r, room = r + 1 → Predictive (.taking (· = .name "a") (· = punct .bang)) parse r) :
    Predictive (.taking (· = .name "a") (· = punct .bang)) parse room := by
  have hclose : ∀ type room, Predictive (.taking (· = punct .bracketClose) fun _ => False)
      (fun _ => (fun _ => list type) <$> expect .bracketClose) room :=
    fun type _ => (predictive_expect _).map _
  have hlist := Predictive.nested (p := parse)
    (f := fun item => item >>= fun type => (fun _ => list type) <$> expect .bracketClose) rfl
    (fun r hr => (ih r hr).bind (fun type => hclose type r) (by simp))
    (satisfiable.bind (fun type => (hclose type 0).satisfiable) (by simp))
  have hbang : ∀ type : TypeRef, Predictive _
      (fun _ => eat (punct .bang) >>= fun b => if b then pure (nonNull type) else pure type) room :=
    fun type => (predictive_eat _).bind (σ := .empty) (fun b => by cases b <;> exact .pure _)
      (by simp)
  have htype := (hlist.choose (predictive_name.map named) (by simp) parseNullable_run).bind
    hbang (by simp)
  refine (htype.congr parse_eq).mono ⟨by simp, by simp, by simp, by simp⟩

theorem predictive (room : Nat) :
    Predictive (.taking (· = .name "a") (· = punct .bang)) parse room := by
  induction room with
  | zero => exact predictive_step (by simp)
  | succ room ih => exact predictive_step fun r hr => by cases hr; exact ih

end TypeRef

/-! ## Values -/

namespace Value

theorem predictive_parseEntry {value : Nat → Parser (Value m)}
    (h : Predictive (.taking (· = .name "a") fun _ => False) value room) :
    Predictive (.taking (· = .name "a") fun _ => False) (fun room => parseEntry (value room))
      room := by
  refine (predictive_name.bind (fun key => (predictive_expect .colon).bind
    (fun _ => h.bind (fun value => .pure (key, value)) (by simp)) (by simp)) (by simp)).mono
    ⟨by simp, by simp, by simp, by simp⟩

/-- A name is a value. -/
private theorem satisfiable : Satisfiable (.taking (· = .name "a") fun _ => False) (parse m) :=
  ⟨[.name "a"], ofName "a", by simp; decide, by simp, by simp,
    fun room rest _ _ => parse_of_token rfl room rest⟩

private theorem predictive_step
    (ih : ∀ r, room = r + 1 →
      Predictive (.taking (· = .name "a") fun _ => False) (parse m) r) :
    Predictive (.taking (· = .name "a") fun _ => False) (parse m) room := by
  refine .dispatch (Begins m)
    (f := fun t => if t = some (punct .dollar) then .variableInConst else .expectedValue) ?_
    (fun room ts h => parse_of_not_begins h room)
    ⟨.name "a", .inr (.inr (.inr ⟨_, rfl⟩)), by decide, rfl⟩
  rintro t (rfl | rfl | ⟨rfl, rfl⟩ | ⟨value, ht⟩)
  · exact ⟨_, _, parse_bracketOpen, by simp, Predictive.nested (p := parse m)
      (f := fun value => list <$> delimited .bracketClose value) (π := .taking _ fun _ => False) rfl
      (fun r hr => ((ih r hr).delimited takes_parse rfl (by simp)).map list)
      ((satisfiable_delimited takes_parse).map list)⟩
  · have hentry : ∀ room, Takes 1 (parseEntry (parse m room)) :=
      fun room => takes_parseEntry ((takes_parse room).mono (by omega))
    exact ⟨_, _, parse_braceOpen, by simp, Predictive.nested (p := parse m)
      (f := fun value => ofPairs <$> delimited .braceClose (parseEntry value))
      (π := .taking _ fun _ => False) rfl
      (fun r hr => ((predictive_parseEntry (ih r hr)).delimited hentry rfl (by simp)).map ofPairs)
      ((satisfiable_delimited hentry).map ofPairs)⟩
  · exact ⟨_, _, parse_dollar, by simp, predictive_name.map _⟩
  · exact ⟨.empty, _, parse_of_token ht, by simp, .pure value⟩

theorem predictive (room : Nat) :
    Predictive (.taking (· = .name "a") fun _ => False) (parse m) room := by
  induction room with
  | zero => exact predictive_step (by simp)
  | succ room ih => exact predictive_step fun r hr => by cases hr; exact ih

theorem predictive_parseDefault (room : Nat) :
    Predictive (.optional (fun _ => False) (· = punct .equals)) parseDefault room := by
  refine (Predictive.choose (k := punct .equals) ((predictive room).map some) (.pure none) (by simp)
    fun room ts => ?_).mono ⟨by simp, by simp, by simp, by simp⟩
  rw [map_eq_bind]
  exact eat_bind_run _ _ ts

end Value

/-! ## Arguments and directives -/

namespace Argument

theorem predictive (room : Nat) :
    Predictive (.taking (· = .name "a") fun _ => False) (parse m) room :=
  ((Value.predictive_parseEntry (Value.predictive room)).bind
    (fun entry => .pure (⟨entry.1, entry.2⟩ : Argument m)) (by simp)).mono
    ⟨by simp, by simp, by simp, by simp⟩

theorem takes_parse (room : Nat) : Takes 1 (parse m room) :=
  Predictive.takes predictive room

theorem predictive_parseAll (room : Nat) :
    Predictive (.optional (fun _ => False) (· = punct .parenOpen)) (parseAll m) room :=
  (predictive room).optionalList _ _ _ takes_parse rfl (by simp) (by simp)

end Argument

namespace Directive

theorem predictive (room : Nat) :
    Predictive (.taking (· = .name "a") (· = punct .parenOpen)) (parse m) room :=
  (predictive_name.bind (fun name => (Argument.predictive_parseAll room).bind
    (fun arguments => .pure (⟨name, arguments⟩ : Directive m)) (by simp)) (by simp)).mono
    ⟨by simp, by simp, by simp, by simp⟩

theorem takes_parse (room : Nat) : Takes 1 (parse m room) :=
  Predictive.takes predictive room

theorem predictive_parseAll (room : Nat) :
    Predictive (.optional (fun _ => False) fun t => t = punct .parenOpen ∨ t = punct .atSign)
      (parseAll m) room :=
  (predictive room).each fun room => (takes_parse room).mono (Nat.zero_le 1)

end Directive

/-! ## Definitions of inputs -/

namespace InputValueDefinition

theorem predictive (room : Nat) :
    Predictive (.taking (· = .name "a") fun t => t = punct .bang ∨ t = punct .equals ∨
      t = punct .parenOpen ∨ t = punct .atSign) parse room := by
  have h := predictive_string?.bind (fun description => predictive_name.bind (fun name =>
    (predictive_expect .colon).bind (fun _ => (TypeRef.predictive room).bind (fun type =>
    (Value.predictive_parseDefault room).bind (fun default =>
    (Directive.predictive_parseAll room).bind (fun directives =>
    .pure (⟨description, name, type, default, directives⟩ : InputValueDefinition))
    (by simp)) (by simp)) (by simp)) (by simp)) (by simp)) (by simp)
  exact h.mono ⟨by simp, by simp, by simp, by simp; grind⟩

theorem takes_parse (room : Nat) : Takes 1 (parse room) :=
  Predictive.takes predictive room

theorem predictive_parseArguments (room : Nat) :
    Predictive (.optional (fun _ => False) (· = punct .parenOpen)) parseArguments room :=
  (predictive room).optionalList _ _ _ takes_parse rfl (by simp) (by simp)

end InputValueDefinition

end GraphQLSyntax
