import GraphQLSyntax.Proofs.Grammar.Acceptance

/-!
# Where definitions end

A definition ends in front of a token that cannot belong to it. Only a brace can begin a definition
and belong to the one in front of it too.

* `Definition.head_ne_of_lacksBlock`: behind a definition without its block there is no brace.
* `Definition.stopsAtBrace`: a definition ends in front of a brace unless it lacks its block. With
  the brace it would have one.
* `Definition.parseAll_append`: definitions can stand behind definitions, but a brace cannot stand
  behind one that lacks its block.
-/

namespace GraphQLSyntax

open GraphQLSyntax.Parser

/-! ## Definitions without their blocks -/

namespace Definition

private theorem head_ne_of_items_eq_nil {α : Type} {item : Production α} {depth : Nat}
    {ts rest : List TokenKind}
    (h : Production.OptionalList .braceOpen .braceClose item depth ts [] rest) :
    rest.head? ≠ some (punct .braceOpen) := by
  cases h with
  | present _ nonempty => exact absurd rfl nonempty
  | absent next => exact next

private theorem head_ne_of_derives {kind : TypeKind} {depth : Nat} {ts rest : List TokenKind}
    {parts : List (Directive .const) × TypeBody} (h : TypeBody.Derives kind depth ts parts rest)
    (hparts : parts.2.lacksBlock = true) : rest.head? ≠ some (punct .braceOpen) := by
  cases h with
  | scalar | union => cases hparts
  | object _ _ hfields | interface _ _ hfields | enum _ hfields | input _ hfields =>
    obtain rfl := List.isEmpty_iff.mp hparts
    exact head_ne_of_items_eq_nil hfields

/-- Behind a definition without its block there is no brace. -/
theorem head_ne_of_lacksBlock {room : Nat} {ts rest : List TokenKind} {d : Definition}
    (h : parse room ts = .ok (d, rest)) (hd : d.lacksBlock = true) :
    rest.head? ≠ some (punct .braceOpen) := by
  cases (recognizes room).mp h with
  | shorthand => cases hd
  | keyword _ _ inner =>
    cases inner with
    | operation | fragment | directive => cases hd
    | schema inner =>
      cases inner with
      | intro _ hentries _ =>
        obtain rfl := Entries.eq_nil_of_ofPairs (List.isEmpty_iff.mp hd)
        exact head_ne_of_items_eq_nil hentries
    | type kind inner =>
      cases inner with
      | intro inner _ => exact head_ne_of_derives inner hd

end Definition

/-! ## Braces behind a text -/

namespace Parser

variable {α β : Type} {room : Nat} {π : Profile} {lacks : α → Bool}

/-- What a parser does if a brace is put behind a text that it has read to the end: it stops there,
unless what it has read `lacks` a block. Then it can only give what has one. -/
structure StopsAtBrace (lacks : α → Bool) (p : Parser α) : Prop where
  stops {ts us : List TokenKind} {x : α} : p ts = .ok (x, []) → lacks x = false →
    p (ts ++ punct .braceOpen :: us) = .ok (x, punct .braceOpen :: us)
  goesOn {ts us rest : List TokenKind} {x y : α} : p ts = .ok (x, []) → lacks x = true →
    p (ts ++ punct .braceOpen :: us) = .ok (y, rest) → lacks y = false

/-- A parser that goes on with no brace. -/
theorem Predictive.stopsAtBrace {p : Nat → Parser α} (h : Predictive π p room)
    (hg : ¬ π.goesOn (punct .braceOpen)) : StopsAtBrace (fun _ => false) (p room) where
  stops {ts us x} hx _ := by
    obtain ⟨pre, hpre, -, hr⟩ := (h.all ts).ok hx
    rw [List.append_nil] at hpre
    subst hpre
    exact hr room _ (.inl (Nat.le_refl _)) (.inr (avoids_cons.mpr hg))
  goesOn _ hlacks := by cases hlacks

theorem PredictiveBehind.stopsAtBrace {t : TokenKind} {p : Nat → Parser α}
    (h : PredictiveBehind t π p room) (hg : ¬ π.goesOn (punct .braceOpen)) :
    StopsAtBrace (fun _ => false) (fun ts => p room (t :: ts)) := by
  obtain ⟨σ, q, hp, hσ, hq⟩ := h
  have hstops := hq.stopsAtBrace fun hbrace => hg (hσ _ hbrace)
  rwa [← funext (hp room)] at hstops

namespace StopsAtBrace

theorem congr {p q : Parser α} (h : StopsAtBrace lacks q) (hp : ∀ ts, p ts = q ts) :
    StopsAtBrace lacks p := by
  rwa [funext hp]

/-- What stands behind a part that goes on with no brace decides. -/
theorem bind {p : Nat → Parser α} {q : α → Parser β} {lacks : β → Bool}
    (h : Predictive π p room) (hg : ¬ π.goesOn (punct .braceOpen))
    (hq : ∀ x, StopsAtBrace lacks (q x)) : StopsAtBrace lacks (p room >>= q) := by
  have hlonger : ∀ {ts mid x}, p room ts = .ok (x, mid) → ∀ us,
      p room (ts ++ punct .braceOpen :: us) = .ok (x, mid ++ punct .braceOpen :: us) := by
    intro ts mid x hx us
    obtain ⟨pre, rfl, -, hr⟩ := (h.all ts).ok hx
    rw [List.append_assoc]
    apply hr room _ (.inl (Nat.le_refl _))
    cases mid with
    | nil => exact .inr (avoids_cons.mpr hg)
    | cons t mid => exact .inl rfl
  constructor
  · intro ts us y hy hlacks
    obtain ⟨x, mid, h₁, h₂⟩ := bind_eq_ok.mp hy
    exact bind_eq_ok.mpr ⟨x, _, hlonger h₁ us, (hq x).stops h₂ hlacks⟩
  · intro ts us rest y z hy hlacks hz
    obtain ⟨x, mid, h₁, h₂⟩ := bind_eq_ok.mp hy
    rw [bind_of_ok (hlonger h₁ us)] at hz
    exact (hq x).goesOn h₂ hlacks hz

/-- A check of what was read takes no tokens. -/
theorem checked {p : Parser α} {lacks' : β → Bool} {f : α → β} (h : StopsAtBrace lacks p)
    (check : α → Option SyntaxFault) (hf : ∀ x, lacks' (f x) = lacks x) :
    StopsAtBrace lacks' (p >>= fun x =>
      match check x with
      | some g => fail g
      | none => pure (f x)) := by
  constructor
  · intro ts us y hy hlacks
    obtain ⟨x, hx, hcheck, rfl⟩ := checked_eq_ok.mp hy
    exact checked_eq_ok.mpr ⟨x, h.stops hx (hf x ▸ hlacks), hcheck, rfl⟩
  · intro ts us rest y z hy hlacks hz
    obtain ⟨x, hx, -, rfl⟩ := checked_eq_ok.mp hy
    obtain ⟨x', hx', -, rfl⟩ := checked_eq_ok.mp hz
    exact (hf x').trans (h.goesOn hx (hf x ▸ hlacks) hx')

theorem giving {p : Parser α} {lacks' : β → Bool} {f : α → β} (h : StopsAtBrace lacks p)
    (hf : ∀ x, lacks' (f x) = lacks x) : StopsAtBrace lacks' (p >>= fun x => pure (f x)) :=
  h.checked (fun _ => none) hf

theorem map {p : Parser α} {lacks' : β → Bool} {f : α → β} (h : StopsAtBrace lacks p)
    (hf : ∀ x, lacks' (f x) = lacks x) : StopsAtBrace lacks' (f <$> p) := by
  rw [map_eq_bind]
  exact h.giving hf

/-- A parser is judged by the texts that begin with a token that it can begin with. -/
theorem of_head {p : Parser α} (hnil : ∀ x, p [] ≠ .ok (x, []))
    (h : ∀ t ts x, p (t :: ts) = .ok (x, []) → StopsAtBrace lacks fun ts => p (t :: ts)) :
    StopsAtBrace lacks p := by
  constructor
  · intro ts us x hx
    cases ts with
    | nil => exact (hnil x hx).elim
    | cons t ts => exact (h t ts x hx).stops hx
  · intro ts us rest x y hx
    cases ts with
    | nil => exact (hnil x hx).elim
    | cons t ts => exact (h t ts x hx).goesOn hx

theorem behind {p : Parser α} (h : StopsAtBrace lacks p) (t : TokenKind) :
    StopsAtBrace lacks fun ts => p (t :: ts) :=
  ⟨fun hx => h.stops hx, fun hx => h.goesOn hx⟩

end StopsAtBrace

/-- A list in braces lacks them if it is empty. -/
theorem stopsAtBrace_optionalList {ι : Profile} {item : Nat → Parser α} (h : Predictive ι item room)
    (list : NonemptyList) (ht : ∀ room, Takes 1 (item room)) (hi : ι.inside = false)
    (hs : ∀ t, ι.starts t → t ≠ punct .braceClose) (hg : ¬ ι.goesOn (punct .braceClose)) :
    StopsAtBrace List.isEmpty (optionalList list .braceOpen .braceClose (item room)) := by
  have hitems := h.delimitedNonempty list ht hi hs hg
  constructor
  · intro ts us xs hx hne
    rw [optionalList_run] at hx
    split at hx
    · next hhead =>
      obtain ⟨tail, rfl⟩ := List.head?_eq_some_iff.mp hhead
      rw [List.cons_append, optionalList_run, if_pos List.head?_cons]
      exact (hitems.stopsAtBrace (by simp)).stops hx rfl
    · cases hx
      cases hne
  · intro ts us rest xs ys hx hempty hy
    obtain rfl := List.isEmpty_iff.mp hempty
    obtain rfl := optionalList_eq_nil (ht room) hx
    cases ys with
    | nil =>
      -- Without items nothing is taken, not even the brace.
      have hrest := optionalList_eq_nil (ht room) hy
      rw [List.nil_append, optionalList_run, if_pos List.head?_cons] at hy
      have hle := takes_delimitedNonempty list _ ((ht room).mono (by omega)) _ _ _ hy
      simp only [hrest, List.nil_append, List.tail_cons, List.length_cons] at hle
      omega
    | cons y ys => rfl

end Parser

/-! ## Definitions in front of braces -/

theorem SchemaDefinition.stopsAtBrace (t : TokenKind) (heading : Heading) (room : Nat) :
    StopsAtBrace (fun d : SchemaDefinition => d.operationTypes.isEmpty)
      fun ts => SchemaDefinition.parse room heading (t :: ts) := by
  have hparts : StopsAtBrace (fun parts => parts.2.isEmpty) (parseParts room) :=
    .bind (Directive.predictive_parseAll room) (by simp) fun directives =>
      (stopsAtBrace_optionalList (predictive_parseEntry room) .operationTypes
        (fun _ => takes_parseEntry) rfl (by simp) (by simp)).giving fun _ => rfl
  refine (hparts.checked emptyBody? fun parts => ?_).congr (parse_run room heading t)
  rw [Bool.eq_iff_iff, List.isEmpty_iff, List.isEmpty_iff]
  exact ⟨Entries.eq_nil_of_ofPairs, fun h => by rw [h]; rfl⟩

namespace TypeBody

private theorem stopsAtBrace_parseBlock {α : Type} {ι : Profile} {item : Nat → Parser α}
    {room : Nat} (h : Predictive ι item room) (list : NonemptyList)
    (ht : ∀ room, Takes 1 (item room)) (hi : ι.inside = false)
    (hs : ∀ t, ι.starts t → t ≠ punct .braceClose) (hg : ¬ ι.goesOn (punct .braceClose))
    {f : List α → TypeBody} (hf : ∀ xs, (f xs).lacksBlock = xs.isEmpty) :
    StopsAtBrace (fun parts : List (Directive .const) × TypeBody => parts.2.lacksBlock) (do
      let directives ← Directive.parseAll .const room
      return (directives, f (← parseBlock list (item room)))) :=
  .bind (Directive.predictive_parseAll room) (by simp) fun _ =>
    (stopsAtBrace_optionalList h list ht hi hs hg).giving hf

theorem stopsAtBrace (kind : TypeKind) (room : Nat) :
    StopsAtBrace (fun parts => parts.2.lacksBlock) (parse room kind) := by
  have hinterfaces : Predictive _ _ room := predictive_parseInterfaces
  have hmembers : Predictive _ _ room := predictive_parseMembers
  have hfields := fun f hf => stopsAtBrace_parseBlock (FieldDefinition.predictive room) .fields
    FieldDefinition.takes_parse rfl (by simp) (by simp) (f := f) hf
  cases kind with
  | scalar =>
    exact ((Directive.predictive_parseAll room).stopsAtBrace (by simp)).giving fun _ => rfl
  | object =>
    exact .bind hinterfaces (by simp) fun interfaces => hfields (object interfaces) fun _ => rfl
  | interface =>
    exact .bind hinterfaces (by simp) fun interfaces => hfields (interface interfaces) fun _ => rfl
  | union =>
    exact .bind (Directive.predictive_parseAll room) (by simp) fun _ =>
      (hmembers.stopsAtBrace (by simp)).giving fun _ => rfl
  | enum =>
    exact stopsAtBrace_parseBlock (EnumValueDefinition.predictive room) .enumValues
      EnumValueDefinition.takes_parse rfl (by simp) (by simp) fun _ => rfl
  | input =>
    exact stopsAtBrace_parseBlock (InputValueDefinition.predictive room) .inputFields
      InputValueDefinition.takes_parse rfl (by simp) (by simp) fun _ => rfl

end TypeBody

theorem TypeDefinition.stopsAtBrace (t : TokenKind) (heading : Heading) (kind : TypeKind)
    (room : Nat) :
    StopsAtBrace (fun d : TypeDefinition => d.body.lacksBlock)
      fun ts => TypeDefinition.parse room heading kind (t :: ts) := by
  have hname : Predictive _ _ room := predictive_name
  refine StopsAtBrace.congr ?_ (parse_run room heading kind t)
  exact .bind hname (by simp) fun name =>
    (TypeBody.stopsAtBrace kind room).checked (emptyBody? heading name) fun _ => rfl

namespace Definition

private theorem stopsAtBrace_parseOf (t : TokenKind) (heading : Heading) (k : DefinitionKeyword)
    (room : Nat) : StopsAtBrace lacksBlock fun ts => parseOf room heading k (t :: ts) := by
  cases k with
  | operation operationType =>
    exact ((OperationDefinition.predictiveBehind t operationType).stopsAtBrace (by simp)).map
      (f := operation) fun _ => rfl
  | fragment =>
    exact ((FragmentDefinition.predictiveBehind t).stopsAtBrace (by simp)).map (f := fragment)
      fun _ => rfl
  | schema => exact (SchemaDefinition.stopsAtBrace t heading room).map (f := schema) fun _ => rfl
  | directive =>
    exact ((DirectiveDefinition.predictiveBehind t heading.description).stopsAtBrace (by simp)).map
      (f := directive) fun _ => rfl
  | type kind => exact (TypeDefinition.stopsAtBrace t heading kind room).map (f := type) fun _ => rfl

private theorem stopsAtBrace_parseBody (heading : Heading) (room : Nat) :
    StopsAtBrace lacksBlock (parseBody room heading) := by
  refine .of_head (by rintro x ⟨⟩) fun t ts x hx => ?_
  cases t with
  | name keyword =>
    by_cases h : ∃ k, DefinitionKeyword.ofName? keyword = some k ∧ heading.Allows k
    · obtain ⟨k, hk, hallows⟩ := h
      exact (stopsAtBrace_parseOf _ heading k room).congr (parseBody_of_keyword hk hallows room)
    · rw [parseBody_of_not_allowed fun k hk hallows => h ⟨k, hk, hallows⟩] at hx
      cases hx
  | punctuator | int | float | string => cases hx

/-- A definition ends in front of a brace, unless it lacks its block. -/
theorem stopsAtBrace (room : Nat) : StopsAtBrace lacksBlock (parse room) := by
  refine .of_head (by rintro x ⟨⟩) fun t ts x hx => ?_
  by_cases ht : t = punct .braceOpen
  · subst ht
    exact (((Selection.predictiveBehind_parseSet room).stopsAtBrace (by simp)).map
      (f := fun selections => operation (.shorthand selections)) fun _ => rfl).congr
      fun ts => (parse_run room _).trans (if_pos rfl)
  · have hbody := StopsAtBrace.bind (Heading.predictive room) (by simp)
      fun heading => stopsAtBrace_parseBody heading room
    exact (hbody.behind t).congr fun ts => (parse_run room _).trans (if_neg (by simpa using ht))

/-! ## Definitions behind definitions -/

variable {room : Nat} {ts us mid rest : List TokenKind} {d : Definition} {ds es : List Definition}

/-- But for the brace, no definition begins with what can belong to the one in front of it. -/
theorem not_goesOn_of_parse {t : TokenKind} (h : parse room (t :: ts) = .ok (d, rest))
    (ht : t ≠ punct .braceOpen) : ¬ TypeBody.GoesOn t := by
  rintro (rfl | rfl | rfl | rfl | rfl | rfl | rfl)
  case inr.inr.inr.inr.inl => exact ht rfl
  all_goals cases h

private theorem parseAll_eq_nil : parseAll room ts = .ok ([], rest) ↔ ts = [] ∧ rest = [] := by
  rw [parseAll_run room (takes_parse room)]
  split
  · next hts => simp [hts, eq_comm]
  · next hts => simp [bind_eq_ok, map_eq_ok, hts]

private theorem parseAll_eq_cons : parseAll room ts = .ok (d :: ds, rest) ↔
    ∃ mid, parse room ts = .ok (d, mid) ∧ parseAll room mid = .ok (ds, rest) := by
  rw [parseAll_run room (takes_parse room)]
  split
  · next hts =>
    subst hts
    constructor
    · rintro ⟨⟩
    · rintro ⟨mid, ⟨⟩, -⟩
  · simp only [bind_eq_ok, map_eq_ok, List.cons.injEq]
    constructor
    · rintro ⟨d, mid, hd, ds, hds, rfl, rfl⟩
      exact ⟨mid, hd, hds⟩
    · rintro ⟨mid, hd, hds⟩
      exact ⟨d, mid, hd, ds, hds, rfl, rfl⟩

/-- A definition is read in front of others as it is read alone, unless it lacks its block and a
brace follows. -/
private theorem parse_append (hd : parse room ts = .ok (d, mid))
    (hus : parseAll room us = .ok (es, []))
    (h : mid = [] → d.lacksBlock = true → us.head? ≠ some (punct .braceOpen)) :
    parse room (ts ++ us) = .ok (d, mid ++ us) := by
  obtain ⟨pre, rfl, -, hr⟩ := ((predictive room).all ts).ok hd
  rw [List.append_assoc]
  -- With tokens left the next one stays the same. With none left it is the first of `us`.
  cases mid with
  | cons t mid => exact hr room _ (.inl (Nat.le_refl _)) (.inl rfl)
  | nil =>
    rw [List.append_nil] at hd
    rw [List.nil_append]
    cases us with
    | nil => exact hr room _ (.inl (Nat.le_refl _)) (.inl rfl)
    | cons t us =>
      by_cases ht : t = punct .braceOpen
      · subst ht
        have hblock : d.lacksBlock = false := by simpa using h rfl
        exact (stopsAtBrace room).stops hd hblock
      · have hfirst : ∃ e rest, parse room (t :: us) = .ok (e, rest) := by
          cases es with
          | nil => exact absurd (parseAll_eq_nil.mp hus).1 (by simp)
          | cons e es =>
            obtain ⟨rest, he, -⟩ := parseAll_eq_cons.mp hus
            exact ⟨e, rest, he⟩
        obtain ⟨e, rest, he⟩ := hfirst
        exact hr room _ (.inl (Nat.le_refl _)) (.inr (avoids_cons.mpr (not_goesOn_of_parse he ht)))

/-- Definitions can stand behind definitions, except for a brace behind one that lacks its block. -/
theorem parseAll_append (hts : parseAll room ts = .ok (ds, []))
    (hus : parseAll room us = .ok (es, [])) :
    parseAll room (ts ++ us) = .ok (ds ++ es, []) ↔
      ¬ (ds.getLast?.any lacksBlock = true ∧ us.head? = some (punct .braceOpen)) := by
  induction ds generalizing ts with
  | nil =>
    obtain ⟨rfl, -⟩ := parseAll_eq_nil.mp hts
    simpa using hus
  | cons d ds ih =>
    obtain ⟨mid, hd, hds⟩ := parseAll_eq_cons.mp hts
    rw [List.cons_append, parseAll_eq_cons]
    cases ds with
    | cons e ds =>
      -- A token follows, so the definition is read as it was.
      have hmid : mid ≠ [] := by
        rintro rfl
        obtain ⟨_, hnil, -⟩ := parseAll_eq_cons.mp hds
        cases hnil
      have hlonger := parse_append hd hus fun hnil => absurd hnil hmid
      rw [List.getLast?_cons_cons, ← ih hds]
      simp [hlonger]
    | nil =>
      obtain ⟨rfl, -⟩ := parseAll_eq_nil.mp hds
      rw [List.getLast?_singleton, Option.any_some]
      constructor
      · rintro ⟨mid, hd', -⟩ ⟨hlacks, hbrace⟩
        obtain ⟨us, rfl⟩ := List.head?_eq_some_iff.mp hbrace
        -- With the brace the definition would have its block.
        have hblock := (stopsAtBrace room).goesOn hd hlacks hd'
        rw [hlacks] at hblock
        cases hblock
      · intro h
        exact ⟨us, parse_append hd hus fun _ hlacks hbrace => h ⟨hlacks, hbrace⟩, hus⟩

end Definition

end GraphQLSyntax
