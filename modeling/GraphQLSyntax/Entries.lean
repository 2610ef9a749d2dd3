/-!
# Entries in order

Objects and schemas hold entries with distinct keys, in the order in which the keys first came. A
repeated key keeps its place and takes the last value.

* `keys_put`, `nodup_ofPairs`: putting an entry keeps the keys in place and distinct.
* `mem_ofPairs`: all entries are pairs that were put.
* `length_flatMap_ofPairs_le`: they are not written as more than the pairs.
* `ofPairs_of_nodup`: entries with distinct keys are kept as they are.
* `ofPairs_map`: which entries are kept does not depend on the values.
-/

namespace GraphQLSyntax

namespace Entries

variable {κ α : Type} [DecidableEq κ]

/-- Replaces the value of the key, or adds an entry at the end. -/
def put (entries : List (κ × α)) (key : κ) (value : α) : List (κ × α) :=
  match entries with
  | [] => [(key, value)]
  | (k, v) :: entries => if k = key then (k, value) :: entries else (k, v) :: put entries key value

/-- The entries that a sequence of pairs leaves. -/
def ofPairs (pairs : List (κ × α)) : List (κ × α) :=
  pairs.foldl (fun entries pair => put entries pair.1 pair.2) []

/-- Whether two sets of entries have the same keys, in any order, with values related by `rel`. -/
def sameEntries (rel : α → α → Bool) (xs ys : List (κ × α)) : Bool :=
  xs.length == ys.length && xs.all fun entry => (ys.lookup entry.1).any (rel entry.2)

theorem keys_put (entries : List (κ × α)) (key : κ) (value : α) :
    (put entries key value).map Prod.fst =
      if key ∈ entries.map Prod.fst then entries.map Prod.fst
      else entries.map Prod.fst ++ [key] := by
  fun_induction put entries key value <;> grind

theorem nodup_put {entries : List (κ × α)} (h : (entries.map Prod.fst).Nodup) (key : κ)
    (value : α) : ((put entries key value).map Prod.fst).Nodup := by
  rw [keys_put]
  split
  · exact h
  · grind [List.nodup_append]

/-- The entries of any pairs have distinct keys. -/
theorem nodup_ofPairs (pairs : List (κ × α)) : ((ofPairs pairs).map Prod.fst).Nodup := by
  have general : ∀ entries : List (κ × α), (entries.map Prod.fst).Nodup →
      ((pairs.foldl (fun entries pair => put entries pair.1 pair.2) entries).map Prod.fst).Nodup := by
    induction pairs with
    | nil => exact fun _ h => h
    | cons pair pairs ih => exact fun _ h => ih _ (nodup_put h _ _)
  exact general [] (by simp)

theorem mem_put {entries : List (κ × α)} {key : κ} {value : α} {entry : κ × α}
    (h : entry ∈ put entries key value) : entry = (key, value) ∨ entry ∈ entries := by
  fun_induction put entries key value <;> grind

theorem put_ne_nil (entries : List (κ × α)) (key : κ) (value : α) : put entries key value ≠ [] := by
  fun_cases put entries key value <;> simp

/-- Pairs leave entries if there are any pairs. -/
theorem ofPairs_ne_nil {pairs : List (κ × α)} (h : pairs ≠ []) : ofPairs pairs ≠ [] := by
  have general : ∀ entries : List (κ × α), entries ≠ [] →
      pairs.foldl (fun entries pair => put entries pair.1 pair.2) entries ≠ [] := by
    clear h
    induction pairs with
    | nil => exact fun _ h => h
    | cons pair pairs ih => exact fun _ _ => ih _ (put_ne_nil _ _ _)
  cases pairs with
  | nil => exact absurd rfl h
  | cons pair pairs =>
    exact fun hnil => general [(pair.1, pair.2)] (by simp) (by simpa [ofPairs, put] using hnil)

theorem eq_nil_of_ofPairs {pairs : List (κ × α)} (h : ofPairs pairs = []) : pairs = [] :=
  Decidable.byContradiction fun hne => ofPairs_ne_nil hne h

/-- No entry comes from anywhere else. -/
theorem mem_ofPairs {pairs : List (κ × α)} {entry : κ × α} (h : entry ∈ ofPairs pairs) :
    entry ∈ pairs := by
  have general : ∀ entries : List (κ × α),
      entry ∈ pairs.foldl (fun entries pair => put entries pair.1 pair.2) entries →
        entry ∈ entries ∨ entry ∈ pairs := by
    clear h
    induction pairs with
    | nil => exact fun _ h => .inl h
    | cons pair pairs ih =>
      intro entries h
      rcases ih _ h with h | h
      · rcases mem_put h with h | h
        · exact .inr (h ▸ List.mem_cons_self)
        · exact .inl h
      · exact .inr (List.mem_cons_of_mem _ h)
  simpa using general [] h

/-- Pairs that replace others do not make what the entries are written as longer. -/
theorem length_flatMap_ofPairs_le {τ : Type} (tokens : κ × α → List τ) (pairs : List (κ × α)) :
    ((ofPairs pairs).flatMap tokens).length ≤ (pairs.flatMap tokens).length := by
  have put_le : ∀ (entries : List (κ × α)) (pair : κ × α),
      ((put entries pair.1 pair.2).flatMap tokens).length ≤
        (entries.flatMap tokens).length + (tokens pair).length := by
    rintro entries ⟨key, value⟩
    induction entries with
    | nil => simp [put]
    | cons entry entries ih =>
      obtain ⟨k, v⟩ := entry
      dsimp only at ih ⊢
      rw [put]
      split
      · next hkey =>
        rw [hkey, List.flatMap_cons, List.flatMap_cons, List.length_append, List.length_append]
        omega
      · rw [List.flatMap_cons, List.flatMap_cons, List.length_append, List.length_append]
        omega
  have general : ∀ entries : List (κ × α),
      ((pairs.foldl (fun entries pair => put entries pair.1 pair.2) entries).flatMap tokens).length ≤
        (entries.flatMap tokens).length + (pairs.flatMap tokens).length := by
    induction pairs with
    | nil => simp
    | cons pair pairs ih =>
      intro entries
      have hput := put_le entries pair
      have hrest := ih (put entries pair.1 pair.2)
      rw [List.foldl_cons, List.flatMap_cons, List.length_append]
      omega
  simpa [ofPairs] using general []

theorem put_of_not_mem {entries : List (κ × α)} {key : κ} (h : key ∉ entries.map Prod.fst)
    (value : α) : put entries key value = entries ++ [(key, value)] := by
  fun_induction put entries key value <;> grind

/-- Pairs with distinct keys are all kept, in their order. -/
theorem ofPairs_of_nodup {pairs : List (κ × α)} (h : (pairs.map Prod.fst).Nodup) :
    ofPairs pairs = pairs := by
  have general : ∀ entries : List (κ × α), ((entries ++ pairs).map Prod.fst).Nodup →
      pairs.foldl (fun entries pair => put entries pair.1 pair.2) entries =
        entries ++ pairs := by
    clear h
    induction pairs with
    | nil => simp
    | cons pair pairs ih =>
      intro entries h
      have new : pair.1 ∉ entries.map Prod.fst := by
        rw [List.map_append, List.nodup_append] at h
        grind
      rw [List.foldl_cons, put_of_not_mem new, ih _ (by simpa using h)]
      simp
  simpa [ofPairs] using general [] (by simpa using h)

theorem put_map {β : Type} (f : α → β) (entries : List (κ × α)) (key : κ) (value : α) :
    put (entries.map fun entry => (entry.1, f entry.2)) key (f value) =
      (put entries key value).map fun entry => (entry.1, f entry.2) := by
  fun_induction put entries key value <;> grind [put]

/-- What the values are makes no difference to which are kept. -/
theorem ofPairs_map {β : Type} (f : α → β) (pairs : List (κ × α)) :
    ofPairs (pairs.map fun pair => (pair.1, f pair.2)) =
      (ofPairs pairs).map fun entry => (entry.1, f entry.2) := by
  have general : ∀ entries : List (κ × α),
      (pairs.map fun pair => (pair.1, f pair.2)).foldl
          (fun entries pair => put entries pair.1 pair.2)
          (entries.map fun entry => (entry.1, f entry.2)) =
        (pairs.foldl (fun entries pair => put entries pair.1 pair.2) entries).map
          fun entry => (entry.1, f entry.2) := by
    induction pairs with
    | nil => exact fun _ => rfl
    | cons pair pairs ih =>
      intro entries
      rw [List.map_cons, List.foldl_cons, List.foldl_cons, put_map]
      exact ih _
  exact general []

end Entries

end GraphQLSyntax
