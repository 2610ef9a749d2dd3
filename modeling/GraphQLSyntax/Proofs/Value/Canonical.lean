import GraphQLSyntax.Value.Equivalence
import Mathlib.Data.List.Sort
import Mathlib.Data.String.Basic

/-!
# Canonical values

Of values without NaN whose objects have distinct keys, those are equivalent that have the same
canonical form: the entries of each object sorted by their keys, and no sign on a zero.

* `Entries.sameEntries_iff_perm`: entries with distinct keys are the same up to their order.
* `Entries.sorted_eq_iff_perm`: sorted, they are equal.
* `Value.canonizes`: so it is at all depths of a value.
-/

namespace GraphQLSyntax

/-! ## Canonical forms -/

section

variable {α β : Type} {P : α → Prop} {eqv : α → α → Bool} {canonical : α → β}

/-- Where `P` holds, `eqv` is equality of the canonical forms. -/
def Canonizes (P : α → Prop) (eqv : α → α → Bool) (canonical : α → β) : Prop :=
  ∀ ⦃x y⦄, P x → P y → (eqv x y = true ↔ canonical x = canonical y)

theorem Canonizes.list (h : Canonizes P eqv canonical) :
    Canonizes (fun xs => ∀ x ∈ xs, P x) (fun xs ys => xs.isEqv ys eqv) (List.map canonical) := by
  intro xs
  induction xs with
  | nil =>
    intro ys _ _
    cases ys <;> simp [List.isEqv]
  | cons x xs ih =>
    intro ys hxs hys
    cases ys with
    | nil => simp [List.isEqv]
    | cons y ys =>
      rw [List.forall_mem_cons] at hxs hys
      have htail := ih hxs.2 hys.2
      dsimp only at htail ⊢
      rw [List.isEqv, Bool.and_eq_true, h hxs.1 hys.1, htail, List.map_cons, List.map_cons,
        List.cons.injEq]

end

/-! ## Numbers -/

namespace Double

/-- Zero without a sign. -/
def positiveZero : Double where
  negative := false
  magnitude := 0

/-- The number itself, but zero without a sign. -/
def canonical (x : Double) : Double :=
  if x.isZero then positiveZero else x

theorem canonizes : Canonizes (fun x => x.isNaN = false) numericEq canonical := by
  have heq : ∀ {x y : Double}, x.isZero = true → y.isZero = false → x ≠ y := by
    rintro x _ hx hy rfl
    simp [hx] at hy
  intro x y hx hy
  have hzero : positiveZero.isZero = true := rfl
  rw [numericEq, hx, hy, canonical, canonical]
  cases hxz : x.isZero <;> cases hyz : y.isZero
  · simp
  · simp [(heq hyz hxz).symm, (heq hzero hxz).symm]
  · simp [heq hxz hyz, heq hzero hyz]
  · simp

end Double

/-! ## Entries -/

namespace Entries

variable {κ α β : Type} [DecidableEq κ] {key : κ → String} {xs ys : List (κ × α)}

/-- Entries in the order of their keys. -/
def sorted (key : κ → String) (entries : List (κ × α)) : List (κ × α) :=
  entries.insertionSort fun a b => key a.1 ≤ key b.1

omit [DecidableEq κ] in
theorem pairwise_sorted (key : κ → String) (entries : List (κ × α)) :
    (sorted key entries).Pairwise fun a b => key a.1 ≤ key b.1 := by
  have htotal : Std.Total fun a b : κ × α => key a.1 ≤ key b.1 := ⟨fun _ _ => le_total _ _⟩
  have htrans : IsTrans (κ × α) fun a b => key a.1 ≤ key b.1 := ⟨fun _ _ _ => le_trans⟩
  exact List.pairwise_insertionSort _ entries

omit [DecidableEq κ] in
theorem perm_sorted (key : κ → String) (entries : List (κ × α)) :
    (sorted key entries).Perm entries :=
  List.perm_insertionSort _ entries

omit [DecidableEq κ] in
/-- Entries with distinct keys are equal if their keys are. -/
theorem eq_of_mem_of_nodup (h : (xs.map Prod.fst).Nodup) {a b : κ × α} (ha : a ∈ xs) (hb : b ∈ xs)
    (hkey : a.1 = b.1) : a = b :=
  List.inj_on_of_nodup_map h ha hb hkey

omit [DecidableEq κ] in
/-- Sorting tells apart what has other entries, and nothing else. -/
theorem sorted_eq_iff_perm (hkey : Function.Injective key) (hx : (xs.map Prod.fst).Nodup) :
    sorted key xs = sorted key ys ↔ xs.Perm ys := by
  constructor
  · intro h
    exact ((perm_sorted key xs).symm.trans (List.Perm.of_eq h)).trans (perm_sorted key ys)
  · intro h
    have hperm : (sorted key xs).Perm (sorted key ys) :=
      ((perm_sorted key xs).trans h).trans (perm_sorted key ys).symm
    refine hperm.eq_of_pairwise (fun a b ha hb hab hba => ?_) (pairwise_sorted key xs)
      (pairwise_sorted key ys)
    have hmem : b ∈ xs := h.mem_iff.mpr ((perm_sorted key ys).mem_iff.mp hb)
    exact eq_of_mem_of_nodup hx ((perm_sorted key xs).mem_iff.mp ha) hmem
      (hkey (le_antisymm hab hba))

/-- What a key of distinct keys is looked up as. -/
theorem lookup_eq_some_iff_mem (h : (ys.map Prod.fst).Nodup) {k : κ} {y : α} :
    ys.lookup k = some y ↔ (k, y) ∈ ys := by
  rw [List.lookup_eq_some_iff]
  constructor
  · rintro ⟨front, back, rfl, -⟩
    simp
  · intro hmem
    obtain ⟨front, back, rfl⟩ := List.append_of_mem hmem
    refine ⟨front, back, rfl, fun entry hentry => ?_⟩
    rw [List.map_append, List.nodup_append] at h
    have hne := h.2.2 entry.1 (List.mem_map_of_mem hentry) k (by simp)
    simpa [bne_iff_ne] using hne.symm

/-- **Entries with distinct keys are the same up to their order**, where `f` tells values apart as
`rel` does. -/
theorem sameEntries_iff_perm {rel : α → α → Bool} {f : α → β} (hx : (xs.map Prod.fst).Nodup)
    (hy : (ys.map Prod.fst).Nodup)
    (hrel : ∀ x ∈ xs, ∀ y ∈ ys, rel x.2 y.2 = true ↔ f x.2 = f y.2) :
    sameEntries rel xs ys = true ↔
      (xs.map fun x => (x.1, f x.2)).Perm (ys.map fun y => (y.1, f y.2)) := by
  have hkeys : ((xs.map fun x => (x.1, f x.2)).map Prod.fst).Nodup := by
    rwa [List.map_map, show (Prod.fst ∘ fun x : κ × α => (x.1, f x.2)) = Prod.fst from rfl]
  -- each entry of `xs` has one in `ys`
  have hany : ∀ x ∈ xs, (ys.lookup x.1).any (rel x.2) = true ↔
      (x.1, f x.2) ∈ ys.map fun y => (y.1, f y.2) := by
    intro x hmem
    rw [Option.any_eq_true, List.mem_map]
    constructor
    · rintro ⟨y, hlookup, hxy⟩
      have hmem' := (lookup_eq_some_iff_mem hy).mp hlookup
      exact ⟨(x.1, y), hmem', by rw [(hrel x hmem _ hmem').mp hxy]⟩
    · rintro ⟨⟨k, y⟩, hmem', heq⟩
      obtain ⟨rfl, hvalue⟩ := Prod.mk.injEq .. ▸ heq
      exact ⟨y, (lookup_eq_some_iff_mem hy).mpr hmem', (hrel x hmem _ hmem').mpr hvalue.symm⟩
  rw [sameEntries, Bool.and_eq_true, beq_iff_eq, List.all_eq_true]
  constructor
  · rintro ⟨hlength, hall⟩
    -- distinct entries, all of them on the other side, and no fewer
    refine (List.subperm_of_subset (.of_map Prod.fst hkeys) ?_).perm_of_length_le
      (by simp [hlength])
    intro entry hentry
    obtain ⟨x, hmem, rfl⟩ := List.mem_map.mp hentry
    exact (hany x hmem).mp (hall x hmem)
  · intro h
    refine ⟨by simpa using h.length_eq, fun x hmem => (hany x hmem).mpr ?_⟩
    exact h.mem_iff.mp (List.mem_map_of_mem (f := fun x => (x.1, f x.2)) hmem)

end Entries

/-! ## Values -/

namespace Value

variable {m : ValueMode}

mutual

/-- No float in the value is NaN, and no key is twice in an object. -/
def Comparable : Value m → Prop
  | varRef _ _ | boolean _ | int _ | string _ | enum _ | null => True
  | float x => x.isNaN = false
  | list items => ItemsComparable items
  | object entries => (entries.map Prod.fst).Nodup ∧ EntriesComparable entries

def ItemsComparable : List (Value m) → Prop
  | [] => True
  | value :: items => value.Comparable ∧ ItemsComparable items

def EntriesComparable : List (String × Value m) → Prop
  | [] => True
  | (_, value) :: entries => value.Comparable ∧ EntriesComparable entries

end

mutual

/-- The value with the entries of all objects sorted by their keys, and no sign on a zero. -/
def canonical : Value m → Value m
  | float x => float x.canonical
  | list items => list (canonicalItems items)
  | object entries => object (Entries.sorted id (canonicalEntries entries))
  | value => value

def canonicalItems : List (Value m) → List (Value m)
  | [] => []
  | value :: items => value.canonical :: canonicalItems items

def canonicalEntries : List (String × Value m) → List (String × Value m)
  | [] => []
  | (key, value) :: entries => (key, value.canonical) :: canonicalEntries entries

end

theorem canonicalEntries_eq (entries : List (String × Value m)) :
    canonicalEntries entries = entries.map fun entry => (entry.1, entry.2.canonical) := by
  induction entries with
  | nil => rfl
  | cons entry entries ih => rw [canonicalEntries, ih, List.map_cons]

theorem entriesComparable_iff {entries : List (String × Value m)} :
    EntriesComparable entries ↔ ∀ entry ∈ entries, entry.2.Comparable := by
  induction entries with
  | nil => simp [EntriesComparable]
  | cons entry entries ih => simp [EntriesComparable, ih]

theorem keys_canonicalEntries (entries : List (String × Value m)) :
    (canonicalEntries entries).map Prod.fst = entries.map Prod.fst := by
  rw [canonicalEntries_eq, List.map_map]
  rfl

mutual

private theorem canonizes_value : ∀ {x y : Value m}, x.Comparable → y.Comparable →
    (x.equiv y = true ↔ x.canonical = y.canonical)
  | varRef _ _, y, _, _ | boolean _, y, _, _ | int _, y, _, _ | string _, y, _, _
  | enum _, y, _, _ | null, y, _, _ => by cases y <;> simp [equiv, canonical]
  | float x, y, hx, hy => by
    cases y with
    | float y =>
      rw [Comparable] at hx hy
      rw [equiv, canonical, canonical, Double.canonizes hx hy, float.injEq]
    | _ => simp [equiv, canonical]
  | list xs, y, hx, hy => by
    cases y with
    | list ys =>
      rw [Comparable] at hx hy
      rw [equiv, canonical, canonical, canonizes_items hx hy, list.injEq]
    | _ => simp [equiv, canonical]
  | object xs, y, hx, hy => by
    cases y with
    | object ys =>
      rw [Comparable] at hx hy
      have hvalues : ∀ x ∈ xs, ∀ y ∈ ys, x.2.equiv y.2 = true ↔ x.2.canonical = y.2.canonical :=
        fun x hmem y hmem' =>
          canonizes_entry hx.2 x hmem (entriesComparable_iff.mp hy.2 y hmem')
      rw [equiv_object, Entries.sameEntries_iff_perm hx.1 hy.1 hvalues, canonical, canonical,
        object.injEq, ← canonicalEntries_eq, ← canonicalEntries_eq,
        Entries.sorted_eq_iff_perm Function.injective_id (by rw [keys_canonicalEntries]; exact hx.1)]
    | _ => simp [equiv, canonical]

private theorem canonizes_items : ∀ {xs ys : List (Value m)}, ItemsComparable xs →
    ItemsComparable ys → (equivItems xs ys = true ↔ canonicalItems xs = canonicalItems ys)
  | [], ys, _, _ => by cases ys <;> simp [equivItems, canonicalItems]
  | x :: xs, ys, hx, hy => by
    cases ys with
    | nil => simp [equivItems, canonicalItems]
    | cons y ys =>
      rw [ItemsComparable] at hx hy
      rw [equivItems, canonicalItems, canonicalItems, Bool.and_eq_true, canonizes_value hx.1 hy.1,
        canonizes_items hx.2 hy.2, List.cons.injEq]

private theorem canonizes_entry : ∀ {xs : List (String × Value m)}, EntriesComparable xs →
    ∀ x ∈ xs, ∀ {y : Value m}, y.Comparable →
      (x.2.equiv y = true ↔ x.2.canonical = y.canonical)
  | [], _, _, h, _, _ => by cases h
  | (_, value) :: xs, hx, _, h, _, hy => by
    rw [EntriesComparable] at hx
    rcases List.mem_cons.mp h with rfl | h
    · exact canonizes_value hx.1 hy
    · exact canonizes_entry hx.2 _ h hy

end

/-- **Comparable values are equivalent if their canonical forms are equal**, and only then. -/
theorem canonizes : Canonizes (α := Value m) Comparable equiv canonical :=
  fun _ _ => canonizes_value

end Value

end GraphQLSyntax
