/-!
# Double-precision numbers

A `Double` is a binary floating-point number of 64 bits, given by its sign and the 63 bits below
it. Read as a number these 63 bits grow with the absolute value, up to infinity, and what is above
infinity is not a number. All operations are exact arithmetic on natural numbers.

Equality of the type is equality of the bits. `Double.numericEq` is the comparison of numbers: both
zeros are equal, and a NaN is equal to nothing.

* `ofBits_toBits` and `toBits_ofBits`: doubles and their bits are one to one.
-/

namespace GraphQLSyntax

/-- A double by its sign and the bits of its absolute value. -/
structure Double where
  negative : Bool
  magnitude : BitVec 63
deriving DecidableEq, Repr

namespace Double

/-! ## Bits -/

/-- The weight of the sign bit. -/
def signWeight : Nat := 0x8000000000000000

def ofBits (bits : UInt64) : Double where
  negative := decide (signWeight ≤ bits.toNat)
  magnitude := BitVec.ofNat 63 bits.toNat

def toBits (x : Double) : UInt64 :=
  UInt64.ofNat ((if x.negative then signWeight else 0) + x.magnitude.toNat)

theorem ofBits_toBits (x : Double) : ofBits x.toBits = x := by
  obtain ⟨negative, magnitude⟩ := x
  have := magnitude.isLt
  cases negative <;> simp [ofBits, toBits, signWeight, ← BitVec.toNat_inj] <;> omega

theorem toBits_ofBits (bits : UInt64) : (ofBits bits).toBits = bits := by
  have hlt := bits.toNat_lt
  rw [← UInt64.toNat_inj]
  by_cases hsign : signWeight ≤ bits.toNat
  all_goals
    simp only [toBits, ofBits, hsign, decide_true, decide_false, if_true, if_false,
      Bool.false_eq_true, BitVec.toNat_ofNat, UInt64.toNat_ofNat']
    simp only [signWeight] at hsign ⊢
    omega

/-! ## Magnitudes

Magnitudes are natural numbers below `2 ^ 63`. Each further `2 ^ 52` of them doubles the step from
one number to the next, except for the first. -/

/-- How many magnitudes there are to a step, `2 ^ 52`. -/
def binade : Nat := 0x10000000000000

/-- The magnitude of infinity. The greatest finite number is just below it. -/
def infiniteMagnitude : Nat := 2047 * binade

/-- The number with this sign and magnitude. Magnitudes above infinity become infinity. -/
def ofMagnitude (negative : Bool) (magnitude : Nat) : Double where
  negative := negative
  magnitude := BitVec.ofNat 63 (min magnitude infiniteMagnitude)

/-- The absolute value of a finite number, in units of the least positive one, `2 ^ -1074`. -/
def units (x : Double) : Nat :=
  let doublings := x.magnitude.toNat / binade - 1
  (x.magnitude.toNat - doublings * binade) <<< doublings

/-! ## Classes -/

def isNaN (x : Double) : Bool :=
  infiniteMagnitude < x.magnitude.toNat

def isInfinite (x : Double) : Bool :=
  x.magnitude.toNat == infiniteMagnitude

def isZero (x : Double) : Bool :=
  x.magnitude.toNat == 0

/-- Equality of the numbers, not of the bits. -/
def numericEq (x y : Double) : Bool :=
  !x.isNaN && !y.isNaN && (x == y || (x.isZero && y.isZero))

end Double

end GraphQLSyntax
