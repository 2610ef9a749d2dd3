import GraphQLSyntax.Proofs.Predictive.Document

/-!
# Loops

All that the grammar repeats is read by loops, an item a round. A round that does not end its loop
takes a token, whatever stands there, so a loop ends with the tokens at the latest, and the bound
that its definition sets is never reached.

* `Parser.Loop`: the loops of the grammar and what each reads in a round.
* `Parser.Loop.advances`: a round with an item takes a token.
* `Parser.Loop.collect_eq`: no larger bound would change a loop.
-/

namespace GraphQLSyntax

namespace Parser

variable {α : Type} {p : Parser (List α)} {item : Parser α} {round : Parser (Option α)}

/-- An item that is read takes a token or more from the front. -/
def ItemAdvances (item : Parser α) : Prop :=
  ∀ ts x rest, item ts = .ok (x, rest) → ∃ taken, taken ≠ [] ∧ ts = taken ++ rest

/-- A round that gives an item takes a token or more from the front. -/
def Advances (round : Parser (Option α)) : Prop :=
  ∀ ts x rest, round ts = .ok (some x, rest) → ∃ taken, taken ≠ [] ∧ ts = taken ++ rest

theorem Advances.progresses (h : Advances round) : Progresses round := by
  intro ts x rest hx
  obtain ⟨taken, hne, rfl⟩ := h ts x rest hx
  have hpos := List.length_pos_iff.mpr hne
  rw [List.length_append]
  omega

/-! ## The loops of the grammar -/

/-- What is listed between delimiters. -/
inductive Listed : {α : Type} → Parser α → Prop
  | value (m : ValueMode) (room : Nat) : Listed (Value.parse m room)
  | entry (m : ValueMode) (room : Nat) : Listed (Value.parseEntry (Value.parse m room))
  | argument (m : ValueMode) (room : Nat) : Listed (Argument.parse m room)
  | selection (room : Nat) : Listed (Selection.parseOne room (Selection.parseSet room))
  | variableDefinition (room : Nat) : Listed (VariableDefinition.parse room)
  | operationType : Listed SchemaDefinition.parseEntry
  | field (room : Nat) : Listed (FieldDefinition.parse room)
  | enumValue (room : Nat) : Listed (EnumValueDefinition.parse room)
  | inputValue (room : Nat) : Listed (InputValueDefinition.parse room)

/-- What is repeated behind a sign. -/
inductive Signed : Punctuator → {α : Type} → Parser α → Prop
  | directive (m : ValueMode) (room : Nat) : Signed .atSign (Directive.parse m room)
  | interface : Signed .amp name
  | member : Signed .pipe name
  | location : Signed .pipe DirectiveDefinition.parseLocation

/-- A loop of the grammar and what it reads in a round. -/
inductive Loop : {α : Type} → Parser (List α) → Parser (Option α) → Prop
  | delimited (close : Punctuator) {α : Type} {item : Parser α} (h : Listed item) :
      Loop (delimited close item) (delimitedRound close item)
  | each (sign : Punctuator) {α : Type} {item : Parser α} (h : Signed sign item) :
      Loop (each sign item) (eachRound sign item)
  | definitions (room : Nat) :
      Loop (Definition.parseAll room) (untilEndRound (Definition.parse room))

/-! ## Progress -/

/-- A parser that follows the contract takes its tokens from the front. -/
theorem Predictive.itemAdvances {π : Profile} {q : Nat → Parser α} {room : Nat}
    (h : Predictive π q room) (hc : π.consumes = true) : ItemAdvances (q room) := by
  intro ts x rest hx
  obtain ⟨taken, hts, hne, -⟩ := (h.all ts).ok hx
  exact ⟨taken, hne hc, hts⟩

theorem Listed.itemAdvances (h : Listed item) : ItemAdvances item := by
  cases h with
  | value m room => exact (Value.predictive room).itemAdvances rfl
  | entry m room => exact (Value.predictive_parseEntry (Value.predictive room)).itemAdvances rfl
  | argument m room => exact (Argument.predictive room).itemAdvances rfl
  | selection room => exact (Selection.predictive room).itemAdvances rfl
  | variableDefinition room => exact (VariableDefinition.predictive room).itemAdvances rfl
  | operationType => exact (SchemaDefinition.predictive_parseEntry 0).itemAdvances rfl
  | field room => exact (FieldDefinition.predictive room).itemAdvances rfl
  | enumValue room => exact (EnumValueDefinition.predictive room).itemAdvances rfl
  | inputValue room => exact (InputValueDefinition.predictive room).itemAdvances rfl

theorem itemAdvances_name : ItemAdvances name :=
  have hname : ∀ room, Predictive _ (fun _ => name) room := fun _ => predictive_name
  (hname 0).itemAdvances rfl

theorem Signed.itemAdvances {sign : Punctuator} (h : Signed sign item) : ItemAdvances item := by
  cases h with
  | directive m room => exact (Directive.predictive room).itemAdvances rfl
  | interface | member => exact itemAdvances_name
  | location => exact (DirectiveDefinition.predictive_parseLocation 0).itemAdvances rfl

private theorem ItemAdvances.of_map_some {ts rest : List TokenKind} {x : α}
    (h : ItemAdvances item) (hx : (some <$> item) ts = .ok (some x, rest)) :
    ∃ taken, taken ≠ [] ∧ ts = taken ++ rest := by
  obtain ⟨y, hy, -⟩ := map_eq_ok.mp hx
  exact h ts y rest hy

theorem ItemAdvances.delimitedRound (h : ItemAdvances item) (close : Punctuator) :
    Advances (delimitedRound close item) := by
  intro ts x rest hx
  rw [delimitedRound_run] at hx
  split at hx
  · cases hx
  · split at hx
    · cases hx
    · exact h.of_map_some hx

theorem ItemAdvances.eachRound (h : ItemAdvances item) (sign : Punctuator) :
    Advances (eachRound sign item) := by
  intro ts x rest hx
  rw [eachRound_run] at hx
  split at hx
  · next hsign =>
    obtain ⟨tail, rfl⟩ := List.head?_eq_some_iff.mp hsign
    obtain ⟨taken, -, htail⟩ := h.of_map_some hx
    exact ⟨punct sign :: taken, List.cons_ne_nil _ _, congrArg (punct sign :: ·) htail⟩
  · cases hx

theorem ItemAdvances.untilEndRound (h : ItemAdvances item) : Advances (untilEndRound item) := by
  intro ts x rest hx
  rw [untilEndRound_run] at hx
  split at hx
  · cases hx
  · exact h.of_map_some hx

/-- **A round of a loop that gives an item takes a token**, on any tokens and at any depth. -/
theorem Loop.advances (h : Loop p round) : Advances round := by
  cases h with
  | delimited close h => exact h.itemAdvances.delimitedRound close
  | each sign h => exact h.itemAdvances.eachRound sign
  | definitions room => exact ((Definition.predictive room).itemAdvances rfl).untilEndRound

/-- A loop repeats its round. -/
theorem Loop.eq_repeated (h : Loop p round) : p = repeated round := by
  cases h with
  | delimited close h => exact delimited_eq close _
  | each sign h => exact each_eq sign _
  | definitions room => rfl

/-- Any bound above the number of tokens gives the same loop. -/
theorem Loop.collect_eq (h : Loop p round) {n : Nat} {ts : List TokenKind} (hn : ts.length < n) :
    collect round n ts = p ts := by
  rw [h.eq_repeated]
  exact collect_eq_collect h.advances.progresses hn (Nat.lt_succ_self _)

end Parser

end GraphQLSyntax
