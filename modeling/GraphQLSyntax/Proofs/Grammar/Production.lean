import GraphQLSyntax.Proofs.Parser.Run

/-!
# Productions

A production of the grammar relates a list of tokens to what its first tokens derive and to the
tokens behind them, for derivations of at most a number of nested levels. What follows is part of
the relation because an optional part is present exactly if its first token comes next.

Productions are built from those of this module. `Recognizes` says that a parser reads exactly what
a production derives, and the rules below say so of the building blocks:

* `recognizes_each`, `recognizes_separated`: items with separators;
* `recognizes_delimited`, `recognizes_optionalList`: items between delimiters.
-/

namespace GraphQLSyntax

/-- What the first tokens of a text derive, with the tokens behind them, in so many levels. -/
abbrev Production (α : Type) :=
  Nat → List TokenKind → α → List TokenKind → Prop

namespace Production

variable {α β : Type}

/-! ## Tokens -/

/-- A name, whatever it is. -/
inductive Name : Production String
  | intro {depth text ts} : Name depth (.name text :: ts) text ts

/-- A name if one comes next. -/
inductive OptionalName : Production (Option String)
  | present {depth text ts} : OptionalName depth (.name text :: ts) (some text) ts
  | absent {depth ts} (next : ∀ text, ts.head? ≠ some (.name text)) : OptionalName depth ts none ts

/-- A string if one comes next. -/
inductive Description : Production (Option String)
  | present {depth text ts} : Description depth (.string text :: ts) (some text) ts
  | absent {depth ts} (next : ∀ text, ts.head? ≠ some (.string text)) : Description depth ts none ts

/-- Whether this token comes next. -/
inductive Flag (first : TokenKind) : Production Bool
  | present {depth ts} : Flag first depth (first :: ts) true ts
  | absent {depth ts} (next : ts.head? ≠ some first) : Flag first depth ts false ts

/-- Something behind this token, if the token comes next. -/
inductive Behind (first : TokenKind) (part : Production α) : Production (Option α)
  | present {depth ts x rest} (inner : part depth ts x rest) :
      Behind first part depth (first :: ts) (some x) rest
  | absent {depth ts} (next : ts.head? ≠ some first) : Behind first part depth ts none ts

/-! ## Lists -/

/-- Items, each behind a separator, for as long as one comes next. -/
inductive Each (separator : Punctuator) (item : Production α) : Production (List α)
  | nil {depth ts} (next : ts.head? ≠ some (punct separator)) : Each separator item depth ts [] ts
  | cons {depth ts x mid xs rest} (first : item depth ts x mid)
      (others : Each separator item depth mid xs rest) :
      Each separator item depth (punct separator :: ts) (x :: xs) rest

/-- One item or more with a separator between each two, and optionally one in front. -/
inductive Separated (separator : Punctuator) (item : Production α) : Production (List α)
  | plain {depth ts x mid xs rest} (next : ts.head? ≠ some (punct separator))
      (first : item depth ts x mid) (others : Each separator item depth mid xs rest) :
      Separated separator item depth ts (x :: xs) rest
  | leading {depth ts x mid xs rest} (first : item depth ts x mid)
      (others : Each separator item depth mid xs rest) :
      Separated separator item depth (punct separator :: ts) (x :: xs) rest

/-- Items up to a closing delimiter. -/
inductive Items (close : Punctuator) (item : Production α) : Production (List α)
  | nil {depth ts} : Items close item depth (punct close :: ts) [] ts
  | cons {depth ts x mid xs rest} (next : ts.head? ≠ some (punct close))
      (first : item depth ts x mid) (others : Items close item depth mid xs rest) :
      Items close item depth ts (x :: xs) rest

/-- One item or more between delimiters, or no delimiters at all. -/
inductive OptionalList (opening close : Punctuator) (item : Production α) : Production (List α)
  | present {depth ts xs rest} (items : Items close item depth ts xs rest) (nonempty : xs ≠ []) :
      OptionalList opening close item depth (punct opening :: ts) xs rest
  | absent {depth ts} (next : ts.head? ≠ some (punct opening)) :
      OptionalList opening close item depth ts [] ts

end Production

namespace Parser

open Production

variable {α β : Type} {depth : Nat} {D : Production α} {p : Parser α}

/-- The parser reads exactly what the production derives in so many levels. -/
def Recognizes (D : Production α) (depth : Nat) (p : Parser α) : Prop :=
  ∀ {ts x rest}, p ts = .ok (x, rest) ↔ D depth ts x rest

/-! ## Tokens -/

theorem recognizes_name (depth : Nat) : Recognizes Name depth name := by
  intro ts x rest
  rw [name_eq_ok]
  constructor
  · rintro rfl
    exact .intro
  · rintro ⟨⟩
    rfl

theorem recognizes_name? (depth : Nat) : Recognizes OptionalName depth name? := by
  intro ts x rest
  rw [name?_eq_ok]
  constructor
  · rintro (⟨text, rfl, rfl⟩ | ⟨next, rfl, rfl⟩)
    · exact .present
    · exact .absent next
  · rintro (_ | next)
    · exact .inl ⟨_, rfl, rfl⟩
    · exact .inr ⟨next, rfl, rfl⟩

theorem recognizes_string? (depth : Nat) : Recognizes Description depth string? := by
  intro ts x rest
  rw [string?_eq_ok]
  constructor
  · rintro (⟨text, rfl, rfl⟩ | ⟨next, rfl, rfl⟩)
    · exact .present
    · exact .absent next
  · rintro (_ | next)
    · exact .inl ⟨_, rfl, rfl⟩
    · exact .inr ⟨next, rfl, rfl⟩

theorem recognizes_eat (first : TokenKind) (depth : Nat) :
    Recognizes (Flag first) depth (eat first) := by
  intro ts x rest
  rw [eat_eq_ok]
  constructor
  · rintro (⟨rfl, rfl⟩ | ⟨next, rfl, rfl⟩)
    · exact .present
    · exact .absent next
  · rintro (_ | next)
    · exact .inl ⟨rfl, rfl⟩
    · exact .inr ⟨next, rfl, rfl⟩

/-- A part behind its first token. -/
theorem recognizes_behind (first : TokenKind) (h : Recognizes D depth p) :
    Recognizes (Behind first D) depth (do
      if ← eat first then
        return some (← p)
      else
        return none) := by
  intro ts x rest
  rw [eat_bind_eq_ok]
  simp only [if_true, Bool.false_eq_true, if_false, bind_eq_ok, pure_eq_ok]
  constructor
  · rintro (⟨tail, rfl, y, mid, hy, rfl, rfl⟩ | ⟨next, rfl, rfl⟩)
    · exact .present (h.mp hy)
    · exact .absent next
  · rintro (inner | next)
    · exact .inl ⟨_, rfl, _, _, h.mpr inner, rfl, rfl⟩
    · exact .inr ⟨next, rfl, rfl⟩

/-! ## Lists -/

theorem recognizes_each {separator : Punctuator} (ht : Takes 0 p) (h : Recognizes D depth p) :
    Recognizes (Each separator D) depth (each separator p) := by
  intro ts xs rest
  constructor
  · intro hx
    -- Each item is read behind a separator, so the rest of the list is shorter.
    induction hn : ts.length using Nat.strongRecOn generalizing ts xs with
    | ind n ih =>
      rw [each_run ht] at hx
      split at hx
      · next hsep =>
        obtain ⟨tail, rfl⟩ := List.head?_eq_some_iff.mp hsep
        obtain ⟨x, mid, hfirst, hx⟩ := bind_eq_ok.mp hx
        obtain ⟨ys, hothers, rfl⟩ := map_eq_ok.mp hx
        have hlt := ht _ _ _ hfirst
        simp only [List.length_cons] at hn
        exact .cons (h.mp hfirst) (ih mid.length (by simp at hlt; omega) hothers rfl)
      · next hsep =>
        cases hx
        exact .nil hsep
  · intro hx
    induction hx with
    | nil next => rw [each_run ht, if_neg next]
    | cons first others ih =>
      rw [each_run ht, if_pos List.head?_cons]
      exact bind_eq_ok.mpr ⟨_, _, h.mpr first, map_eq_ok.mpr ⟨_, ih h, rfl⟩⟩

theorem recognizes_separated {separator : Punctuator} (ht : Takes 0 p) (h : Recognizes D depth p) :
    Recognizes (Separated separator D) depth (separated separator p) := by
  intro ts xs rest
  rw [separated_run]
  constructor
  · intro hx
    split at hx
    · next hsep =>
      obtain ⟨tail, rfl⟩ := List.head?_eq_some_iff.mp hsep
      obtain ⟨x, mid, hfirst, hx⟩ := bind_eq_ok.mp hx
      obtain ⟨ys, hothers, rfl⟩ := map_eq_ok.mp hx
      exact .leading (h.mp hfirst) ((recognizes_each ht h).mp hothers)
    · next hsep =>
      obtain ⟨x, mid, hfirst, hx⟩ := bind_eq_ok.mp hx
      obtain ⟨ys, hothers, rfl⟩ := map_eq_ok.mp hx
      exact .plain hsep (h.mp hfirst) ((recognizes_each ht h).mp hothers)
  · intro hx
    cases hx with
    | plain next first others =>
      rw [if_neg next]
      exact bind_eq_ok.mpr ⟨_, _, h.mpr first,
        map_eq_ok.mpr ⟨_, (recognizes_each ht h).mpr others, rfl⟩⟩
    | leading first others =>
      rw [if_pos List.head?_cons]
      exact bind_eq_ok.mpr ⟨_, _, h.mpr first,
        map_eq_ok.mpr ⟨_, (recognizes_each ht h).mpr others, rfl⟩⟩

theorem recognizes_delimited {close : Punctuator} (ht : Takes 1 p) (h : Recognizes D depth p) :
    Recognizes (Items close D) depth (delimited close p) := by
  intro ts xs rest
  constructor
  · intro hx
    induction hn : ts.length using Nat.strongRecOn generalizing ts xs with
    | ind n ih =>
      rw [delimited_run ht] at hx
      split at hx
      · next hclose =>
        obtain ⟨tail, rfl⟩ := List.head?_eq_some_iff.mp hclose
        cases hx
        exact .nil
      · next hclose =>
        split at hx
        · cases hx
        · obtain ⟨x, mid, hfirst, hx⟩ := bind_eq_ok.mp hx
          obtain ⟨ys, hothers, rfl⟩ := map_eq_ok.mp hx
          have hlt := ht _ _ _ hfirst
          exact .cons hclose (h.mp hfirst) (ih mid.length (by omega) hothers rfl)
  · intro hx
    induction hx with
    | nil => rw [delimited_run ht, if_pos List.head?_cons, List.tail_cons]
    | @cons depth ts x mid xs rest next first others ih =>
      have hfirst := h.mpr first
      have hne : ts ≠ [] := fun hnil => by
        have hlt := ht _ _ _ hfirst
        simp [hnil] at hlt
      rw [delimited_run ht, if_neg next, if_neg hne]
      exact bind_eq_ok.mpr ⟨_, _, hfirst, map_eq_ok.mpr ⟨_, ih h, rfl⟩⟩

/-- A list that may not be empty. -/
theorem delimitedNonempty_eq_ok {list : NonemptyList} {close : Punctuator} (ht : Takes 1 p)
    (h : Recognizes D depth p) {ts rest : List TokenKind} {xs : List α} :
    delimitedNonempty list close p ts = .ok (xs, rest) ↔
      Items close D depth ts xs rest ∧ xs ≠ [] := by
  rw [delimitedNonempty_run, ← recognizes_delimited ht h]
  constructor
  · intro hx
    split at hx
    · cases hx
    · next hclose =>
      refine ⟨hx, ?_⟩
      rintro rfl
      rcases (recognizes_delimited ht h).mp hx with _ | _
      exact hclose rfl
  · rintro ⟨hx, hne⟩
    rw [if_neg]
    · exact hx
    · intro hclose
      rw [delimited_run ht, if_pos hclose] at hx
      cases hx
      exact hne rfl

theorem recognizes_optionalList (list : NonemptyList) {opening close : Punctuator}
    (ht : Takes 1 p) (h : Recognizes D depth p) :
    Recognizes (OptionalList opening close D) depth (optionalList list opening close p) := by
  intro ts xs rest
  rw [optionalList_run]
  constructor
  · intro hx
    split at hx
    · next hopening =>
      obtain ⟨tail, rfl⟩ := List.head?_eq_some_iff.mp hopening
      obtain ⟨items, nonempty⟩ := (delimitedNonempty_eq_ok ht h).mp hx
      exact .present items nonempty
    · next hopening =>
      cases hx
      exact .absent hopening
  · intro hx
    cases hx with
    | present items nonempty =>
      rw [if_pos List.head?_cons]
      exact (delimitedNonempty_eq_ok ht h).mpr ⟨items, nonempty⟩
    | absent next => rw [if_neg next]

end Parser

end GraphQLSyntax
