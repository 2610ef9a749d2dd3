import GraphQLSyntax.Proofs.Parser.Predictive
import GraphQLSyntax.Proofs.WellFormed.Basic
import GraphQLSyntax.Proofs.WellFormed.Tokens

/-!
# What is well formed is derived

The tokens that a well-formed part is written as derive that part again, in as many levels as it is
deep, whatever stands behind them: only a token that the part would go on with must not. `Writes`
states this of a production at one depth. A list needs more of its items: what one of them begins
with is nothing that the one in front of it would go on with.

* `Definition.allDerive_tokens`: definitions in a row, each behind any other.
-/

namespace GraphQLSyntax

open GraphQLSyntax.Parser (Avoids avoids_nil avoids_cons)

/-- What stands first decides. -/
theorem avoids_append {goesOn : TokenKind → Prop} {ts rest : List TokenKind} (h : Avoids goesOn ts)
    (hrest : Avoids goesOn rest) : Avoids goesOn (ts ++ rest) := by
  cases ts with
  | nil => exact hrest
  | cons t ts => exact avoids_cons.mpr (avoids_cons.mp h)

theorem avoids_enclosed {goesOn : TokenKind → Prop} {opening close : Punctuator}
    {items : List (List TokenKind)} (h : ¬ goesOn (punct opening)) :
    Avoids goesOn (enclosed opening close items) := by
  unfold enclosed
  split
  · exact avoids_nil _
  · exact avoids_cons.mpr h

namespace Production

variable {α : Type} {depth : Nat} {D : Production α} {P : α → Prop} {tokens : α → List TokenKind}
  {goesOn : TokenKind → Prop}

/-- What has the property derives from its tokens, if no token follows that goes on with it. -/
def Writes (D : Production α) (depth : Nat) (P : α → Prop) (tokens : α → List TokenKind)
    (goesOn : TokenKind → Prop) : Prop :=
  ∀ {x rest}, P x → Avoids goesOn rest → D depth (tokens x ++ rest) x rest

/-- What has the property begins with a token of another kind. -/
def BeginsOutside (P : α → Prop) (tokens : α → List TokenKind) (goesOn : TokenKind → Prop) : Prop :=
  ∀ x, P x → ∃ t ts, tokens x = t :: ts ∧ ¬ goesOn t

theorem BeginsOutside.avoids (h : BeginsOutside P tokens goesOn) {x : α} (hx : P x)
    (rest : List TokenKind) : Avoids goesOn (tokens x ++ rest) := by
  obtain ⟨t, ts, hts, ht⟩ := h x hx
  rw [hts]
  exact avoids_cons.mpr ht

theorem description_tokens (depth : Nat) (description : Option String) {rest : List TokenKind}
    (h : ∀ text, rest.head? ≠ some (.string text)) :
    Description depth (descriptionTokens description ++ rest) description rest := by
  cases description with
  | none => exact .absent h
  | some text => exact .present

theorem writes_each {separator : Punctuator} (hD : Writes D depth P tokens goesOn)
    (hsep : ¬ goesOn (punct separator)) :
    Writes (Each separator D) depth (fun xs => ∀ x ∈ xs, P x)
      (fun xs => xs.flatMap fun x => punct separator :: tokens x)
      (fun t => t = punct separator ∨ goesOn t) := by
  intro xs rest hxs hrest
  induction xs with
  | nil => exact .nil fun hhead => hrest _ hhead (.inl rfl)
  | cons x xs ih =>
    obtain ⟨hx, hxs⟩ := List.forall_mem_cons.mp hxs
    simp only [List.flatMap_cons, List.cons_append, List.append_assoc]
    refine .cons (hD hx ?_) (ih hxs)
    cases xs with
    | nil => exact hrest.mono fun _ => .inr
    | cons y ys => simpa using hsep

/-- Single tokens with a separator between each two. -/
theorem separated_tokens {separator : Punctuator} {token : α → TokenKind}
    (hD : ∀ {x rest}, P x → D depth (token x :: rest) x rest)
    (hsep : ∀ x, token x ≠ punct separator) {xs : List α} (hxs : ∀ x ∈ xs, P x) (hne : xs ≠ [])
    {rest : List TokenKind} (hrest : rest.head? ≠ some (punct separator)) :
    Separated separator D depth ((xs.map token).intersperse (punct separator) ++ rest) xs rest := by
  have hwrites : Writes D depth P (fun x => [token x]) fun _ => False := fun hx _ => hD hx
  obtain ⟨x, xs, rfl⟩ := List.exists_cons_of_ne_nil hne
  obtain ⟨hx, hxs⟩ := List.forall_mem_cons.mp hxs
  rw [List.map_cons, intersperse_cons, List.flatMap_map]
  refine .plain (by simpa using hsep x) (hD hx) (writes_each hwrites (by simp) hxs ?_)
  rintro t ht (rfl | hfalse)
  · exact hrest ht
  · exact hfalse

theorem items_tokens (close : Punctuator) (hD : Writes D depth P tokens goesOn)
    (hbegins : BeginsOutside P tokens fun t => t = punct close ∨ goesOn t)
    (hclose : ¬ goesOn (punct close)) {xs : List α} (hxs : ∀ x ∈ xs, P x) (rest : List TokenKind) :
    Items close D depth (xs.flatMap tokens ++ punct close :: rest) xs rest := by
  induction xs with
  | nil => exact .nil
  | cons x xs ih =>
    obtain ⟨hx, hxs⟩ := List.forall_mem_cons.mp hxs
    rw [List.flatMap_cons, List.append_assoc]
    have hnext : Avoids goesOn (xs.flatMap tokens ++ punct close :: rest) := by
      cases xs with
      | nil => exact avoids_cons.mpr hclose
      | cons y ys =>
        rw [List.flatMap_cons, List.append_assoc]
        exact (hbegins.avoids (hxs y List.mem_cons_self) _).mono fun _ => .inr
    refine .cons ?_ (hD hx hnext) (ih hxs)
    exact (hbegins.avoids hx _).of_head_ne (.inl rfl)

theorem optionalList_tokens (opening close : Punctuator) (hD : Writes D depth P tokens goesOn)
    (hbegins : BeginsOutside P tokens fun t => t = punct close ∨ goesOn t)
    (hclose : ¬ goesOn (punct close)) {xs : List α} (hxs : ∀ x ∈ xs, P x) {rest : List TokenKind}
    (hrest : xs = [] → rest.head? ≠ some (punct opening)) :
    OptionalList opening close D depth (enclosed opening close (xs.map tokens) ++ rest) xs rest := by
  cases xs with
  | nil => exact .absent (hrest rfl)
  | cons x xs =>
    have hitems := items_tokens close hD hbegins hclose hxs rest
    simpa [enclosed, List.flatMap_def] using Production.OptionalList.present hitems (by simp)

end Production

open Production

variable {m : ValueMode} {depth : Nat}

private theorem forall_mem_and {α : Type} {W : α → Prop} {f : α → Nat} {xs : List α}
    (hwf : ∀ x ∈ xs, W x) (hdepth : listDepth f xs ≤ depth) : ∀ x ∈ xs, W x ∧ f x ≤ depth :=
  fun x hx => ⟨hwf x hx, listDepth_le.mp hdepth x hx⟩

/-! ## Types -/

namespace TypeRef

private theorem derivesNullable_tokens {type : TypeRef} (hwf : type.WellFormed)
    (hdepth : type.depth ≤ depth) (hnot : ∀ inner, type ≠ nonNull inner)
    (ih : ∀ d, depth = d + 1 →
      Writes Derives d (fun type => type.WellFormed ∧ type.depth ≤ d) tokens (· = punct .bang))
    (rest : List TokenKind) : DerivesNullable depth (type.tokens ++ rest) type rest := by
  cases type with
  | named name => exact .named
  | list inner =>
    obtain ⟨d, rfl⟩ : ∃ d, depth = d + 1 := ⟨depth - 1, by simp [TypeRef.depth] at hdepth; omega⟩
    have hitem : inner.WellFormed ∧ inner.depth ≤ d := ⟨hwf, Nat.le_of_succ_le_succ hdepth⟩
    have hclose : Avoids (· = punct .bang) (punct .bracketClose :: rest) := by simp
    simpa [tokens] using DerivesNullable.list (ih d rfl hitem hclose)
  | nonNull inner => exact absurd rfl (hnot inner)

private theorem writes_step
    (ih : ∀ d, depth = d + 1 →
      Writes Derives d (fun type => type.WellFormed ∧ type.depth ≤ d) tokens (· = punct .bang)) :
    Writes Derives depth (fun type => type.WellFormed ∧ type.depth ≤ depth) tokens
      (· = punct .bang) := by
  rintro type rest ⟨hwf, hdepth⟩ hrest
  cases type with
  | nonNull inner =>
    have hinner := derivesNullable_tokens hwf.1 hdepth hwf.2 ih (punct .bang :: rest)
    simpa [tokens] using Derives.nonNull hinner
  | _ =>
    exact .nullable (derivesNullable_tokens hwf hdepth (by simp) ih rest) (hrest.of_head_ne rfl)

theorem writes (depth : Nat) :
    Writes Derives depth (fun type => type.WellFormed ∧ type.depth ≤ depth) tokens
      (· = punct .bang) := by
  induction depth with
  | zero => exact writes_step (by simp)
  | succ depth ih => exact writes_step fun d hd => by cases hd; exact ih

end TypeRef

/-! ## Values -/

namespace Value

/-- A value does not begin with a closing bracket. -/
theorem beginsOutside_tokens (P : Value m → Prop) :
    BeginsOutside P tokens fun t => t = punct .bracketClose ∨ False := by
  rintro (_ | (_ | _) | _) _ <;> exact ⟨_, _, rfl, by simp⟩

private theorem writes_step
    (ih : ∀ d, depth = d + 1 →
      Writes (Derives m) d (fun value => value.WellFormed ∧ value.depth ≤ d) tokens
        fun _ => False) :
    Writes (Derives m) depth (fun value => value.WellFormed ∧ value.depth ≤ depth) tokens
      fun _ => False := by
  rintro value rest ⟨hwf, hdepth⟩ -
  cases value with
  | varRef name allowed => exact .varRef allowed
  | boolean value =>
    cases value with
    | true => exact .true
    | false => exact .false
  | int value => exact .int
  | float value => exact .float
  | string value => exact .string
  | enum name => exact .enum hwf.2
  | null => exact .null
  | list items =>
    obtain ⟨d, rfl⟩ : ∃ d, depth = d + 1 := ⟨depth - 1, by simp [Value.depth] at hdepth; omega⟩
    have hitems : ∀ x ∈ items, x.WellFormed ∧ x.depth ≤ d := fun x hx =>
      ⟨itemsWellFormed_iff.mp hwf x hx, itemsDepth_le.mp (Nat.le_of_succ_le_succ hdepth) x hx⟩
    have hinner := items_tokens .bracketClose (ih d rfl) (beginsOutside_tokens _) id
      hitems rest
    simpa [tokens, itemTokens_eq] using Derives.list hinner
  | object entries =>
    obtain ⟨d, rfl⟩ : ∃ d, depth = d + 1 := ⟨depth - 1, by simp [Value.depth] at hdepth; omega⟩
    have hentries : ∀ x ∈ entries, x.2.WellFormed ∧ x.2.depth ≤ d := fun x hx =>
      ⟨(entriesWellFormed_iff.mp hwf.2 x hx).2,
        entriesDepth_le.mp (Nat.le_of_succ_le_succ hdepth) x hx⟩
    have hentry : Writes (DerivesEntry (Derives m)) d
        (fun entry => entry.2.WellFormed ∧ entry.2.depth ≤ d) tokensOfEntry fun _ => False :=
      fun hx hrest => .intro (ih d rfl hx hrest)
    have hinner := items_tokens .braceClose hentry (fun x _ => ⟨_, _, rfl, by simp⟩) id
      hentries rest
    -- Entries with distinct keys are collected as they stand.
    have hobject := Derives.object hinner
    rw [ofPairs, Entries.ofPairs_of_nodup hwf.1] at hobject
    simpa [tokens, entryTokens_eq] using hobject

theorem writes (depth : Nat) :
    Writes (Derives m) depth (fun value => value.WellFormed ∧ value.depth ≤ depth) tokens
      fun _ => False := by
  induction depth with
  | zero => exact writes_step (by simp)
  | succ depth ih => exact writes_step fun d hd => by cases hd; exact ih

theorem writes_default (depth : Nat) :
    Writes (Behind (punct .equals) (Derives m)) depth
      (fun default => DefaultWellFormed default ∧ defaultDepth default ≤ depth) defaultTokens
      (· = punct .equals) := by
  rintro default rest ⟨hwf, hdepth⟩ hrest
  cases default with
  | none => exact .absent (hrest.of_head_ne rfl)
  | some value => exact .present (writes depth ⟨hwf value rfl, hdepth⟩ fun _ _ => id)

theorem avoids_defaultTokens {goesOn : TokenKind → Prop} (h : ¬ goesOn (punct .equals))
    (default : Option (Value m)) : Avoids goesOn (defaultTokens default) := by
  cases default with
  | none => exact avoids_nil _
  | some value => exact avoids_cons.mpr h

end Value

/-! ## Arguments and directives -/

namespace Argument

theorem writes (depth : Nat) :
    Writes (Derives m) depth (fun a => a.WellFormed ∧ a.depth ≤ depth) tokens fun _ => False :=
  fun ⟨hwf, hdepth⟩ hrest => .intro (Value.writes depth ⟨hwf.2, hdepth⟩ hrest)

theorem writes_all (depth : Nat) :
    Writes (OptionalList .parenOpen .parenClose (Derives m)) depth
      (fun arguments => ∀ a ∈ arguments, a.WellFormed ∧ a.depth ≤ depth) allTokens
      (· = punct .parenOpen) :=
  fun hwf hrest => optionalList_tokens _ _ (writes depth) (fun _ _ => ⟨_, _, rfl, by simp⟩) id hwf
    fun _ => hrest.of_head_ne rfl

end Argument

namespace Directive

theorem writes (depth : Nat) :
    Writes (Derives m) depth (fun d => d.WellFormed ∧ d.depth ≤ depth)
      (fun d => .name d.name :: Argument.allTokens d.arguments) (· = punct .parenOpen) :=
  fun ⟨hwf, hdepth⟩ hrest =>
    .intro (Argument.writes_all depth (forall_mem_and hwf.2 hdepth) hrest)

theorem writes_all (depth : Nat) :
    Writes (AllDerive m) depth (fun directives => ∀ d ∈ directives, d.WellFormed ∧ d.depth ≤ depth)
      allTokens fun t => t = punct .atSign ∨ t = punct .parenOpen :=
  writes_each (writes depth) (by simp)

theorem avoids_allTokens {goesOn : TokenKind → Prop} (h : ¬ goesOn (punct .atSign))
    (directives : List (Directive m)) : Avoids goesOn (allTokens directives) := by
  cases directives with
  | nil => exact avoids_nil _
  | cons d directives => exact avoids_cons.mpr h

end Directive

/-! ## Selections -/

namespace Selection

/-- Tokens that a selection would go on with. -/
private def GoesOnWith (t : TokenKind) : Prop :=
  t = punct .colon ∨ t = punct .parenOpen ∨ t = punct .atSign ∨ t = punct .braceOpen

private theorem derivesNames_tokens (depth : Nat) (names : Option String × String)
    {rest : List TokenKind} (h : rest.head? ≠ some (punct .colon)) :
    DerivesNames depth (nameTokens names ++ rest) names rest := by
  obtain ⟨_ | first, name⟩ := names
  · exact .plain h
  · exact .aliased

private theorem beginsOutside_tokens (P : Selection → Prop) :
    BeginsOutside P tokens fun t => t = punct .braceClose ∨ GoesOnWith t := by
  intro s _
  cases s with
  | field aliasName => cases aliasName <;> exact ⟨_, _, rfl, by simp [GoesOnWith]⟩
  | spread => exact ⟨_, _, rfl, by simp [GoesOnWith]⟩
  | inline => exact ⟨_, _, rfl, by simp [GoesOnWith]⟩

/-- A set stands one level deeper than what it selects. -/
private theorem derivesSet_tokens
    (ih : Writes Derives depth (fun s => s.WellFormed ∧ s.depth ≤ depth) tokens GoesOnWith)
    {selections : List Selection} (hwf : ∀ s ∈ selections, s.WellFormed ∧ s.depth ≤ depth)
    (nonempty : selections ≠ []) (rest : List TokenKind) :
    DerivesSet Derives (depth + 1) (setTokens selections ++ rest) selections rest := by
  have hitems :=
    items_tokens .braceClose ih (beginsOutside_tokens _) (by simp [GoesOnWith]) hwf rest
  simpa [setTokens, listTokens_eq] using DerivesSet.intro hitems nonempty

private theorem writes_step
    (ih : ∀ d, depth = d + 1 →
      Writes Derives d (fun s => s.WellFormed ∧ s.depth ≤ d) tokens GoesOnWith) :
    Writes Derives depth (fun s => s.WellFormed ∧ s.depth ≤ depth) tokens GoesOnWith := by
  have hset : ∀ {selections}, AllWellFormed selections → allDepth selections + 1 ≤ depth →
      selections ≠ [] → ∀ rest,
        DerivesSet Derives depth (setTokens selections ++ rest) selections rest := by
    intro selections hwf hdepth nonempty rest
    obtain ⟨d, rfl⟩ : ∃ d, depth = d + 1 := ⟨depth - 1, by omega⟩
    exact derivesSet_tokens (ih d rfl) (fun s hs => ⟨allWellFormed_iff.mp hwf s hs,
      allDepth_le.mp (Nat.le_of_succ_le_succ hdepth) s hs⟩) nonempty rest
  rintro s rest ⟨hwf, hdepth⟩ hrest
  cases s with
  | field aliasName name arguments directives selections =>
    obtain ⟨-, -, harguments, hdirectives, hselections⟩ := hwf
    simp only [Selection.depth, Nat.max_le] at hdepth
    obtain ⟨hargumentsDepth, hdirectivesDepth, hselectionsDepth⟩ := hdepth
    -- What follows the directives is the brace of the set, or else what follows the field.
    have hown : DerivesOwn Derives depth
        ((if selections.isEmpty then [] else setTokens selections) ++ rest) selections rest := by
      cases selections with
      | nil => exact .absent (hrest.of_head_ne (by simp [GoesOnWith]))
      | cons s selections => exact .present (hset hselections hselectionsDepth (by simp) rest)
    have hbehind : Avoids (fun t => t = punct .colon ∨ t = punct .parenOpen ∨ t = punct .atSign)
        ((if selections.isEmpty then [] else setTokens selections) ++ rest) := by
      refine avoids_append ?_ (hrest.mono fun t ht => ?_)
      · split
        · exact avoids_nil _
        · exact avoids_cons.mpr (by simp)
      · rcases ht with rfl | rfl | rfl <;> simp [GoesOnWith]
    rw [tokens_field, List.append_assoc, List.append_assoc, List.append_assoc]
    have hnext : Avoids (fun t => t = punct .colon ∨ t = punct .parenOpen)
        (Directive.allTokens directives ++
          ((if selections.isEmpty then [] else setTokens selections) ++ rest)) :=
      avoids_append (Directive.avoids_allTokens (by simp) _)
        (hbehind.mono fun t ht => ht.imp_right .inl)
    have hcolon : Avoids (· = punct .colon) (Argument.allTokens arguments ++
        (Directive.allTokens directives ++
          ((if selections.isEmpty then [] else setTokens selections) ++ rest))) :=
      avoids_append (avoids_enclosed (by simp)) (hnext.mono fun t => .inl)
    exact .field (derivesNames_tokens depth (aliasName, name) (hcolon.of_head_ne rfl))
      (Argument.writes_all depth (forall_mem_and harguments hargumentsDepth)
        (hnext.mono fun t => .inr))
      (Directive.writes_all depth (forall_mem_and hdirectives hdirectivesDepth)
        (hbehind.mono fun t ht => .inr ht.symm)) hown
  | spread name directives =>
    refine .spread hwf.2.1 (Directive.writes_all depth (forall_mem_and hwf.2.2 hdepth) ?_)
    exact hrest.mono fun t ht => by rcases ht with rfl | rfl <;> simp [GoesOnWith]
  | inline condition directives selections =>
    obtain ⟨-, hdirectives, nonempty, hselections⟩ := hwf
    simp only [Selection.depth, Nat.max_le] at hdepth
    have hown := hset hselections hdepth.2 nonempty rest
    have hbrace : Avoids (fun t => t = punct .atSign ∨ t = punct .parenOpen)
        (setTokens selections ++ rest) := avoids_cons.mpr (by simp)
    have hdirs := Directive.writes_all depth (forall_mem_and hdirectives hdepth.1) hbrace
    simpa [tokens, setTokens] using Derives.inline hdirs hown

theorem derivesSet_setTokens {selections : List Selection}
    (hwf : selections ≠ [] ∧ ∀ s ∈ selections, s.WellFormed)
    (hdepth : listDepth Selection.depth selections + 1 ≤ depth) (rest : List TokenKind) :
    DerivesSet Derives depth (setTokens selections ++ rest) selections rest := by
  have hwrites : ∀ depth,
      Writes Derives depth (fun s => s.WellFormed ∧ s.depth ≤ depth) tokens GoesOnWith := by
    intro depth
    induction depth with
    | zero => exact writes_step (by simp)
    | succ depth ih => exact writes_step fun d hd => by cases hd; exact ih
  obtain ⟨d, rfl⟩ : ∃ d, depth = d + 1 := ⟨depth - 1, by omega⟩
  exact derivesSet_tokens (hwrites d) (forall_mem_and hwf.2 (Nat.le_of_succ_le_succ hdepth)) hwf.1
    rest

end Selection

/-! ## Operations and fragments -/

/-- Tokens that the type, the default and the directives of an input would go on with. -/
private def GoesOnWithInput (t : TokenKind) : Prop :=
  t = punct .bang ∨ t = punct .equals ∨ t = punct .atSign ∨ t = punct .parenOpen

/-- A type, a default and directives in a row. -/
private theorem input_tokens {type : TypeRef} {default : Option (Value .const)}
    {directives : List (Directive .const)} {rest : List TokenKind}
    (hwf : type.WellFormed ∧ Value.DefaultWellFormed default ∧ ∀ d ∈ directives, d.WellFormed)
    (hdepth : max type.depth (max (Value.defaultDepth default) (listDepth Directive.depth directives))
      ≤ depth) (hrest : Avoids GoesOnWithInput rest) :
    ∃ ts₁ ts₂, TypeRef.Derives depth (type.tokens ++ (Value.defaultTokens default ++
        (Directive.allTokens directives ++ rest))) type ts₁ ∧
      Behind (punct .equals) (Value.Derives .const) depth ts₁ default ts₂ ∧
      Directive.AllDerive .const depth ts₂ directives rest := by
  simp only [Nat.max_le] at hdepth
  have hdirectives : Avoids (fun t => t = punct .bang ∨ t = punct .equals)
      (Directive.allTokens directives ++ rest) :=
    avoids_append (Directive.avoids_allTokens (by simp) _)
      (hrest.mono fun t ht => ht.imp_right .inl)
  have hdefault : Avoids (· = punct .bang)
      (Value.defaultTokens default ++ (Directive.allTokens directives ++ rest)) :=
    avoids_append (Value.avoids_defaultTokens (by simp) _) (hdirectives.mono fun t => .inl)
  exact ⟨_, _, TypeRef.writes depth ⟨hwf.1, hdepth.1⟩ hdefault,
    Value.writes_default depth ⟨hwf.2.1, hdepth.2.1⟩ (hdirectives.mono fun t => .inr),
    Directive.writes_all depth (forall_mem_and hwf.2.2 hdepth.2.2)
      (hrest.mono fun t ht => .inr (.inr ht))⟩

namespace VariableDefinition

theorem writes (depth : Nat) :
    Writes Derives depth (fun d => d.WellFormed ∧ d.depth ≤ depth) tokens GoesOnWithInput := by
  rintro d rest ⟨⟨-, hwf⟩, hdepth⟩ hrest
  obtain ⟨ts₁, ts₂, htype, hdefault, hdirectives⟩ := input_tokens hwf hdepth hrest
  have hd : Derives depth (punct .dollar :: .name d.name :: punct .colon :: _) d rest :=
    .intro htype hdefault hdirectives
  simpa [tokens] using hd

end VariableDefinition

namespace OperationDefinition

/-- An operation behind its keyword. -/
theorem derives_tokens {d : OperationDefinition} (hwf : d.WellFormed) (hdepth : d.depth ≤ depth)
    (rest : List TokenKind) : Derives d.operation depth (d.fullTokens.tail ++ rest) d rest := by
  obtain ⟨-, hvariables, hdirectives, hselections⟩ := hwf
  simp only [OperationDefinition.depth, Nat.max_le] at hdepth
  have hset := Selection.derivesSet_setTokens hselections hdepth.2.2 rest
  have hbrace : ∀ goesOn, ¬ goesOn (punct .braceOpen) →
      Avoids goesOn (Selection.setTokens d.selections ++ rest) := fun _ h => avoids_cons.mpr h
  have hat : ∀ goesOn, ¬ goesOn (punct .atSign) → ¬ goesOn (punct .braceOpen) →
      Avoids goesOn (Directive.allTokens d.directives ++ (Selection.setTokens d.selections ++ rest)) :=
    fun _ h h' => avoids_append (Directive.avoids_allTokens h _) (hbrace _ h')
  have hdirs := Directive.writes_all depth (forall_mem_and hdirectives hdepth.2.1)
    (hbrace _ (by simp))
  have hvars := optionalList_tokens .parenOpen .parenClose (VariableDefinition.writes depth)
    (fun _ _ => ⟨_, _, rfl, by simp [GoesOnWithInput]⟩) (by simp [GoesOnWithInput])
    (forall_mem_and hvariables hdepth.1)
    fun _ => (hat (· = punct .parenOpen) (by simp) (by simp)).of_head_ne rfl
  have hname : ∀ ts, Avoids (fun t => ∃ text, t = .name text) ts →
      OptionalName depth ((d.name.map TokenKind.name).toList ++ ts) d.name ts := by
    intro ts hts
    cases d.name with
    | none => exact .absent fun text => hts.of_head_ne ⟨text, rfl⟩
    | some name => exact .present
  have hd : Derives d.operation depth _ d rest :=
    .intro (hname _ (avoids_append (avoids_enclosed (by simp)) (hat _ (by simp) (by simp)))) hvars
      hdirs hset
  simpa [fullTokens] using hd

end OperationDefinition

namespace FragmentDefinition

/-- A fragment behind its keyword. -/
theorem derives_tokens {d : FragmentDefinition} (hwf : d.WellFormed) (hdepth : d.depth ≤ depth)
    (rest : List TokenKind) : Derives depth (d.tokens.tail ++ rest) d rest := by
  obtain ⟨-, notOn, -, hdirectives, hselections⟩ := hwf
  simp only [FragmentDefinition.depth, Nat.max_le] at hdepth
  have hset := Selection.derivesSet_setTokens hselections hdepth.2 rest
  have hbrace : Avoids (fun t => t = punct .atSign ∨ t = punct .parenOpen)
      (Selection.setTokens d.selections ++ rest) := avoids_cons.mpr (by simp)
  have hdirs := Directive.writes_all depth (forall_mem_and hdirectives hdepth.1) hbrace
  have hd : Derives depth (.name d.name :: .name "on" :: .name d.condition :: _) d rest :=
    .intro notOn hdirs hset
  simpa [tokens] using hd

end FragmentDefinition

/-! ## The type system -/

namespace InputValueDefinition

theorem writes (depth : Nat) :
    Writes Derives depth (fun d => d.WellFormed ∧ d.depth ≤ depth) tokens GoesOnWithInput := by
  rintro d rest ⟨⟨-, hwf⟩, hdepth⟩ hrest
  obtain ⟨ts₁, ts₂, htype, hdefault, hdirectives⟩ := input_tokens hwf hdepth hrest
  have hd : Derives depth _ d rest :=
    .intro (description_tokens depth d.description (by simp)) htype hdefault hdirectives
  simpa [tokens] using hd

theorem arguments_tokens {arguments : List InputValueDefinition}
    (hwf : ∀ a ∈ arguments, a.WellFormed)
    (hdepth : listDepth InputValueDefinition.depth arguments ≤ depth) {rest : List TokenKind}
    (hrest : rest.head? ≠ some (punct .parenOpen)) :
    ArgumentsDerive depth (argumentTokens arguments ++ rest) arguments rest := by
  refine optionalList_tokens _ _ (writes depth) ?_ (by simp [GoesOnWithInput])
    (forall_mem_and hwf hdepth) fun _ => hrest
  rintro ⟨_ | text, _, _, _, _⟩ _ <;> exact ⟨_, _, rfl, by simp [GoesOnWithInput]⟩

end InputValueDefinition

namespace FieldDefinition

theorem writes (depth : Nat) :
    Writes Derives depth (fun d => d.WellFormed ∧ d.depth ≤ depth) tokens
      fun t => t = punct .bang ∨ t = punct .atSign ∨ t = punct .parenOpen := by
  rintro d rest ⟨⟨-, harguments, htype, hdirectives⟩, hdepth⟩ hrest
  simp only [FieldDefinition.depth, Nat.max_le] at hdepth
  have hbang : Avoids (· = punct .bang) (Directive.allTokens d.directives ++ rest) :=
    avoids_append (Directive.avoids_allTokens (by simp) _) (hrest.mono fun t => .inl)
  have hdirs := Directive.writes_all depth (forall_mem_and hdirectives hdepth.2.2)
    (hrest.mono fun t => .inr)
  have htype' := TypeRef.writes depth ⟨htype, hdepth.2.1⟩ hbang
  have hd : Derives depth _ d rest :=
    .intro (description_tokens depth d.description (by simp))
      (InputValueDefinition.arguments_tokens harguments hdepth.1 (by simp)) htype' hdirs
  simpa [tokens] using hd

end FieldDefinition

namespace EnumValueDefinition

theorem writes (depth : Nat) :
    Writes Derives depth (fun d => d.WellFormed ∧ d.depth ≤ depth) tokens
      fun t => t = punct .atSign ∨ t = punct .parenOpen := by
  rintro d rest ⟨⟨-, hdirectives⟩, hdepth⟩ hrest
  have hdirs := Directive.writes_all depth (forall_mem_and hdirectives hdepth) hrest
  have hd : Derives depth _ d rest := .intro (description_tokens depth d.description (by simp)) hdirs
  simpa [tokens] using hd

end EnumValueDefinition

/-- Tokens that a definition would go on with. A brace is one only if the definition lacks a block
that it could have. -/
def GoesOnWithDefinition (lacksBlock : Bool) (t : TokenKind) : Prop :=
  t = .name "implements" ∨ t = punct .amp ∨ t = punct .atSign ∨ t = punct .parenOpen ∨
    t = punct .equals ∨ t = punct .pipe ∨ lacksBlock = true ∧ t = punct .braceOpen

/-- Directives, and then a block in braces, or none if no brace follows. -/
private theorem block_tokens {α : Type} {D : Production α} {W : α → Prop} {f : α → Nat}
    {tokens : α → List TokenKind} {goesOn : TokenKind → Prop}
    (hD : Writes D depth (fun x => W x ∧ f x ≤ depth) tokens goesOn)
    (hbegins : ∀ P, BeginsOutside P tokens fun t => t = punct .braceClose ∨ goesOn t)
    (hclose : ¬ goesOn (punct .braceClose)) {directives : List (Directive .const)}
    (hdirectives : ∀ d ∈ directives, d.WellFormed)
    (hdirectivesDepth : listDepth Directive.depth directives ≤ depth) {xs : List α}
    (hwf : ∀ x ∈ xs, W x) (hdepth : listDepth f xs ≤ depth) {rest : List TokenKind}
    (hrest : Avoids (GoesOnWithDefinition xs.isEmpty) rest) :
    ∃ mid, Directive.AllDerive .const depth (Directive.allTokens directives ++
        (TypeBody.blockTokens (xs.map tokens) ++ rest)) directives mid ∧
      TypeBody.BlockDerives D depth mid xs rest := by
  have hbehind : Avoids (fun t => t = punct .atSign ∨ t = punct .parenOpen)
      (TypeBody.blockTokens (xs.map tokens) ++ rest) :=
    avoids_append (avoids_enclosed (by simp))
      (hrest.mono fun t ht => by rcases ht with rfl | rfl <;> simp [GoesOnWithDefinition])
  refine ⟨_, Directive.writes_all depth (forall_mem_and hdirectives hdirectivesDepth) hbehind,
    optionalList_tokens _ _ hD (hbegins _) hclose (forall_mem_and hwf hdepth) fun hnil => ?_⟩
  subst hnil
  exact hrest.of_head_ne (by simp [GoesOnWithDefinition])

namespace SchemaDefinition

/-- A schema behind its keyword. -/
theorem derives_tokens {d : SchemaDefinition} (hwf : d.WellFormed) (hdepth : d.depth ≤ depth)
    {rest : List TokenKind} (hrest : Avoids (GoesOnWithDefinition d.operationTypes.isEmpty) rest) :
    Derives d.toHeading depth (Directive.allTokens d.directives ++
      (enclosed .braceOpen .braceClose (d.operationTypes.map entryTokens) ++ rest)) d rest := by
  obtain ⟨hdirectives, hnodup, -, nonempty⟩ := hwf
  have hentry : Writes DerivesEntry depth (fun _ => True ∧ 0 ≤ depth) entryTokens fun _ => False :=
    fun _ _ => .intro _
  obtain ⟨mid, hdirs, hentries⟩ := block_tokens hentry (fun _ _ _ => ⟨_, _, rfl, by simp⟩) id
    hdirectives hdepth (fun _ _ => trivial) (listDepth_le.mpr fun _ _ => Nat.zero_le _) hrest
  have hd : Derives d.toHeading depth _ { d with operationTypes := Entries.ofPairs d.operationTypes }
      rest := .intro hdirs hentries nonempty
  rw [Entries.ofPairs_of_nodup hnodup] at hd
  exact hd

end SchemaDefinition

namespace TypeBody

private theorem interfaces_tokens (depth : Nat) (names : List String) {rest : List TokenKind}
    (hrest : Avoids (fun t => t = .name "implements" ∨ t = punct .amp) rest) :
    DerivesInterfaces depth (interfaceTokens names ++ rest) names rest := by
  cases names with
  | nil => exact .absent (hrest.of_head_ne (.inl rfl))
  | cons name names =>
    exact .present (separated_tokens (P := fun _ => True) (fun _ => .intro) (by simp) (by simp)
      (by simp) (hrest.of_head_ne (.inr rfl)))

private theorem members_tokens (depth : Nat) (names : List String) {rest : List TokenKind}
    (hrest : Avoids (fun t => t = punct .equals ∨ t = punct .pipe) rest) :
    DerivesMembers depth (memberTokens names ++ rest) names rest := by
  cases names with
  | nil => exact .absent (hrest.of_head_ne (.inl rfl))
  | cons name names =>
    exact .present (separated_tokens (P := fun _ => True) (fun _ => .intro) (by simp) (by simp)
      (by simp) (hrest.of_head_ne (.inr rfl)))

/-- What stands behind the name of a type. -/
theorem derives_tokens {directives : List (Directive .const)} {body : TypeBody}
    (hdirectives : ∀ d ∈ directives, d.WellFormed)
    (hdirectivesDepth : listDepth Directive.depth directives ≤ depth) (hwf : body.WellFormed)
    (hdepth : body.depth ≤ depth) {rest : List TokenKind}
    (hrest : Avoids (GoesOnWithDefinition body.lacksBlock) rest) :
    Derives body.kind depth (interfaceTokens body.interfaces ++
      (Directive.allTokens directives ++ (body.tokens ++ rest))) (directives, body) rest := by
  -- What an item begins with neither closes the block nor continues the item in front of it.
  have hfield : ∀ P, BeginsOutside P FieldDefinition.tokens fun t =>
      t = punct .braceClose ∨ t = punct .bang ∨ t = punct .atSign ∨ t = punct .parenOpen := by
    rintro P ⟨_ | text, _, _, _, _⟩ _ <;> exact ⟨_, _, rfl, by simp⟩
  have hinput : ∀ P, BeginsOutside P InputValueDefinition.tokens fun t =>
      t = punct .braceClose ∨ GoesOnWithInput t := by
    rintro P ⟨_ | text, _, _, _, _⟩ _ <;> exact ⟨_, _, rfl, by simp [GoesOnWithInput]⟩
  have hvalue : ∀ P, BeginsOutside P EnumValueDefinition.tokens fun t =>
      t = punct .braceClose ∨ t = punct .atSign ∨ t = punct .parenOpen := by
    rintro P ⟨_ | text, _, _⟩ _ <;> exact ⟨_, _, rfl, by simp⟩
  have hnames : ∀ items, Avoids (fun t => t = .name "implements" ∨ t = punct .amp)
      (Directive.allTokens directives ++ (blockTokens items ++ rest)) := fun items =>
    avoids_append (Directive.avoids_allTokens (by simp) _) (avoids_append (avoids_enclosed (by simp))
      (hrest.mono fun t ht => by rcases ht with rfl | rfl <;> simp [GoesOnWithDefinition]))
  cases body with
  | scalar =>
    exact .scalar (Directive.writes_all depth (forall_mem_and hdirectives hdirectivesDepth)
      (hrest.mono fun t ht => by rcases ht with rfl | rfl <;> simp [GoesOnWithDefinition]))
  | object interfaces fields =>
    obtain ⟨mid, hdirs, hfields⟩ := block_tokens (FieldDefinition.writes depth) hfield (by simp)
      hdirectives hdirectivesDepth hwf.2 hdepth hrest
    exact .object (interfaces_tokens depth interfaces (hnames _)) hdirs hfields
  | interface interfaces fields =>
    obtain ⟨mid, hdirs, hfields⟩ := block_tokens (FieldDefinition.writes depth) hfield (by simp)
      hdirectives hdirectivesDepth hwf.2 hdepth hrest
    exact .interface (interfaces_tokens depth interfaces (hnames _)) hdirs hfields
  | union members =>
    have hmembers : Avoids (fun t => t = punct .atSign ∨ t = punct .parenOpen)
        (memberTokens members) := by
      unfold memberTokens
      split
      · exact avoids_nil _
      · exact avoids_cons.mpr (by simp)
    refine .union (Directive.writes_all depth (forall_mem_and hdirectives hdirectivesDepth)
      (avoids_append hmembers (hrest.mono fun t ht => ?_)))
      (members_tokens depth members (hrest.mono fun t ht => ?_))
    · rcases ht with rfl | rfl <;> simp [GoesOnWithDefinition]
    · rcases ht with rfl | rfl <;> simp [GoesOnWithDefinition]
  | enum values =>
    obtain ⟨mid, hdirs, hvalues⟩ := block_tokens (EnumValueDefinition.writes depth) hvalue (by simp)
      hdirectives hdirectivesDepth hwf hdepth hrest
    exact .enum hdirs hvalues
  | input fields =>
    obtain ⟨mid, hdirs, hfields⟩ := block_tokens (InputValueDefinition.writes depth) hinput
      (by simp [GoesOnWithInput]) hdirectives hdirectivesDepth hwf hdepth hrest
    exact .input hdirs hfields

end TypeBody

namespace TypeDefinition

/-- A type behind its keyword. -/
theorem derives_tokens {d : TypeDefinition} (hwf : d.WellFormed) (hdepth : d.depth ≤ depth)
    {rest : List TokenKind} (hrest : Avoids (GoesOnWithDefinition d.body.lacksBlock) rest) :
    Derives d.toHeading d.body.kind depth (.name d.name ::
      (TypeBody.interfaceTokens d.body.interfaces ++ (Directive.allTokens d.directives ++
        (d.body.tokens ++ rest)))) d rest := by
  obtain ⟨-, hdirectives, hbody, adds⟩ := hwf
  simp only [TypeDefinition.depth, Nat.max_le] at hdepth
  exact .intro (TypeBody.derives_tokens hdirectives hdepth.1 hbody hdepth.2 hrest) adds

end TypeDefinition

namespace DirectiveDefinition

/-- A directive behind its keyword. -/
theorem derives_tokens {d : DirectiveDefinition} (hwf : d.WellFormed) (hdepth : d.depth ≤ depth)
    {rest : List TokenKind} (hrest : rest.head? ≠ some (punct .pipe)) :
    Derives d.description depth (punct .atSign :: .name d.name ::
      (InputValueDefinition.argumentTokens d.arguments ++
        ((if d.repeatable then [.name "repeatable"] else []) ++
          .name "on" :: (separated .pipe (d.locations.map DirectiveLocation.name) ++ rest)))) d
      rest := by
  obtain ⟨-, harguments, nonempty⟩ := hwf
  have hflag : ∀ ts, Flag (.name "repeatable") depth
      ((if d.repeatable then [.name "repeatable"] else []) ++ .name "on" :: ts) d.repeatable
        (.name "on" :: ts) := by
    intro ts
    cases d.repeatable with
    | true => exact .present
    | false => exact .absent (by simp)
  have hplaces : Separated .pipe DerivesLocation depth
      (separated .pipe (d.locations.map DirectiveLocation.name) ++ rest) d.locations rest := by
    unfold separated
    rw [List.map_map]
    exact separated_tokens (P := fun _ => True) (fun _ => .intro _) (by simp) (by simp) nonempty
      hrest
  refine .intro (InputValueDefinition.arguments_tokens harguments hdepth ?_) (hflag _) hplaces
  cases d.repeatable <;> simp

end DirectiveDefinition

/-! ## Documents -/

/-- A heading in front of a keyword. -/
private theorem heading_tokens (depth : Nat) (heading : Heading) {keyword : String}
    (hkeyword : keyword ≠ "extend") (rest : List TokenKind) :
    Heading.Derives depth (heading.tokens ++ .name keyword :: rest) heading
      (.name keyword :: rest) := by
  obtain ⟨description, isExtension⟩ := heading
  have hflag : Flag (.name "extend") depth
      ((if isExtension then [.name "extend"] else []) ++ .name keyword :: rest) isExtension
      (.name keyword :: rest) := by
    cases isExtension with
    | true => exact .present
    | false => exact .absent (by simpa using hkeyword)
  rw [Heading.tokens, List.append_assoc]
  exact .intro (description_tokens depth description (by cases isExtension <;> simp)) hflag

namespace Definition

private theorem keyword_ne (k : DefinitionKeyword) : k.name ≠ "extend" ∧ k.name ≠ "implements" := by
  rcases k with (_ | _ | _) | _ | _ | _ | (_ | _ | _ | _ | _ | _) <;> decide

/-- A heading and a keyword begin with a word or a string. -/
private theorem avoids_tokens_true {goesOn : TokenKind → Prop} (d : Definition)
    (hname : ∀ name, goesOn (.name name) → name = "implements")
    (hstring : ∀ text, ¬ goesOn (.string text)) (rest : List TokenKind) :
    Avoids goesOn (d.tokens true ++ rest) := by
  have hextend : ¬ goesOn (.name "extend") := fun h => by simpa using hname _ h
  rw [tokens_true]
  rcases d.heading with ⟨_ | text, _ | _⟩
  · exact avoids_cons.mpr fun h => (keyword_ne d.keyword).2 (hname _ h)
  · exact avoids_cons.mpr hextend
  · exact avoids_cons.mpr (hstring text)
  · exact avoids_cons.mpr (hstring text)

/-- No definition begins with what the one in front of it would go on with. -/
theorem avoids_tokens (d : Definition) (behindOpenBlock : Bool) (rest : List TokenKind) :
    Avoids (GoesOnWithDefinition behindOpenBlock) (d.tokens behindOpenBlock ++ rest) := by
  rcases d.tokens_eq behindOpenBlock with h | ⟨rfl, selections, -, h⟩
  · rw [h]
    exact d.avoids_tokens_true (by simp [GoesOnWithDefinition]) (by simp [GoesOnWithDefinition])
      rest
  · rw [h]
    exact avoids_cons.mpr (by simp [GoesOnWithDefinition])

private theorem derivesKeyword_tokens {d : Definition} (hwf : d.WellFormed)
    (hdepth : d.depth ≤ depth) {rest : List TokenKind}
    (hrest : Avoids (GoesOnWithDefinition d.lacksBlock) rest) :
    DerivesKeyword d.heading depth (.name d.keyword.name :: (d.tokensBehindKeyword ++ rest)) d
      rest := by
  cases d with
  | operation d => exact .operation _ (OperationDefinition.derives_tokens hwf hdepth rest)
  | fragment d => exact .fragment (FragmentDefinition.derives_tokens hwf hdepth rest)
  | schema d =>
    have hd := SchemaDefinition.derives_tokens hwf hdepth hrest
    exact .schema (by simpa [heading, tokensBehindKeyword] using hd)
  | type d =>
    have hd := TypeDefinition.derives_tokens hwf hdepth hrest
    exact .type _ (by simpa [heading, tokensBehindKeyword] using hd)
  | directive d =>
    have hpipe : rest.head? ≠ some (punct .pipe) :=
      hrest.of_head_ne (by simp [GoesOnWithDefinition])
    have hd := DirectiveDefinition.derives_tokens hwf hdepth hpipe
    exact .directive (by simpa [tokensBehindKeyword] using hd)

/-- A definition, in front of any token that it would not go on with. -/
theorem derives_tokens {d : Definition} (hwf : d.WellFormed) (hdepth : d.depth ≤ depth)
    (behindOpenBlock : Bool) {rest : List TokenKind}
    (hrest : Avoids (GoesOnWithDefinition d.lacksBlock) rest) :
    Derives depth (d.tokens behindOpenBlock ++ rest) d rest := by
  rcases d.tokens_eq behindOpenBlock with h | ⟨rfl, selections, rfl, h⟩
  · have hbrace : Avoids (· = punct .braceOpen) (d.tokens true ++ rest) :=
      d.avoids_tokens_true (by simp) (by simp) rest
    rw [h]
    refine .keyword (hbrace.of_head_ne rfl) ?_ (derivesKeyword_tokens hwf hdepth hrest)
    rw [tokens_true, List.append_assoc]
    exact heading_tokens depth d.heading (keyword_ne d.keyword).1 _
  · have hselections : listDepth Selection.depth selections + 1 ≤ depth := by
      simpa [Definition.depth, OperationDefinition.depth, OperationDefinition.shorthand]
        using hdepth
    rw [h]
    exact .shorthand (Selection.derivesSet_setTokens hwf.2.2.2 hselections rest)

/-- Definitions in a row derive from their tokens, whatever stands in front of the first one. -/
theorem allDerive_tokens {ds : List Definition} (hwf : ∀ d ∈ ds, d.WellFormed)
    (hdepth : listDepth Definition.depth ds ≤ depth) (behindOpenBlock : Bool) :
    AllDerive depth (allTokens behindOpenBlock ds) ds [] := by
  induction ds generalizing behindOpenBlock with
  | nil => exact .nil
  | cons d ds ih =>
    have hparts := forall_mem_and hwf hdepth
    obtain ⟨⟨hd, hddepth⟩, hds⟩ := List.forall_mem_cons.mp hparts
    have hrest : Avoids (GoesOnWithDefinition d.lacksBlock) (allTokens d.lacksBlock ds) := by
      cases ds with
      | nil => exact avoids_nil _
      | cons e ds => exact e.avoids_tokens _ _
    exact .cons (derives_tokens hd hddepth behindOpenBlock hrest)
      (ih (fun x hx => (hds x hx).1) (listDepth_le.mpr fun x hx => (hds x hx).2) _)

end Definition

end GraphQLSyntax
