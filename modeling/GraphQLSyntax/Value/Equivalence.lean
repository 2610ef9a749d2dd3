import GraphQLSyntax.Value.Basic

/-!
# Equivalence of values

Values are equivalent if they say the same: numbers compare as numbers, so both zeros are alike and
a NaN is like nothing, and objects compare without regard to the order of their entries.
-/

namespace GraphQLSyntax

namespace Value

variable {m : ValueMode}

mutual

def equiv : Value m → Value m → Bool
  | varRef x _, varRef y _ => x == y
  | boolean x, boolean y => x == y
  | int x, int y => x == y
  | float x, float y => x.numericEq y
  | string x, string y => x == y
  | enum x, enum y => x == y
  | null, null => true
  | list xs, list ys => equivItems xs ys
  | object xs, object ys => xs.length == ys.length && equivEntries xs ys
  | _, _ => false

/-- Items correspond one by one. -/
def equivItems : List (Value m) → List (Value m) → Bool
  | [], [] => true
  | x :: xs, y :: ys => x.equiv y && equivItems xs ys
  | _, _ => false

/-- Each of the first entries has an equivalent one of the same key among the second. -/
def equivEntries : List (String × Value m) → List (String × Value m) → Bool
  | [], _ => true
  | (key, x) :: xs, ys =>
    (match ys.lookup key with
      | some y => x.equiv y
      | none => false) && equivEntries xs ys

end

/-- Objects compare as sets of entries. -/
theorem equiv_object (xs ys : List (String × Value m)) :
    (object xs).equiv (object ys) = Entries.sameEntries equiv xs ys := by
  rw [equiv, Entries.sameEntries]
  congr 1
  induction xs with
  | nil => rfl
  | cons x xs ih =>
    rw [equivEntries, ih, List.all_cons]
    cases ys.lookup x.1 <;> simp

/-- Default values are equivalent, or there is none on either side. -/
def equivDefault : Option (Value m) → Option (Value m) → Bool
  | none, none => true
  | some x, some y => x.equiv y
  | _, _ => false

end Value

end GraphQLSyntax
