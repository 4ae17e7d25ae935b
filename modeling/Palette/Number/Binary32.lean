import Palette.Number.Rounding

-- The 32-bit floating-point numbers, held exactly: a finite one is a whole number of units of
-- `2 ^ -149` that fits 24 significant bits. Each operation is the exact result, rounded once to the
-- nearest such number, a tie going to the one with an even last bit.

namespace Palette

-- The least count of units beyond every finite number.
def unitsLimit : Nat := Nat.pow 2 24 * Nat.pow 2 253

-- The units that 24 significant bits can hold, up to the largest finite number.
def Fits (units : Nat) : Prop :=
  units < unitsLimit ∧ ∃ m shift, units = m * Nat.pow 2 shift ∧ m < Nat.pow 2 24

namespace Fits

theorem zero : Fits 0 :=
  ⟨by decide, 0, 0, (Nat.zero_mul _).symm, by decide⟩

-- Rounding up may carry into a 25th bit, but then all lower bits are zero.
theorem mul_two_pow {m shift : Nat} (h : m ≤ Nat.pow 2 24) (lt : m * Nat.pow 2 shift < unitsLimit) :
    Fits (m * Nat.pow 2 shift) := by
  refine ⟨lt, ?_⟩
  rcases Nat.lt_or_eq_of_le h with h | rfl
  · exact ⟨m, shift, rfl, h⟩
  · refine ⟨Nat.pow 2 23, shift + 1, ?_, by decide⟩
    show Nat.pow 2 23 * 2 * Nat.pow 2 shift = Nat.pow 2 23 * (Nat.pow 2 shift * 2)
    rw [Nat.mul_assoc, Nat.mul_comm 2]

end Fits

-- A 32-bit floating-point number. Zero has two signs, not-a-number has none.
inductive Binary32 where
  | nan
  | infinite (negative : Bool)
  | finite (negative : Bool) (units : Nat) (fits : Fits units)
  deriving DecidableEq

namespace Binary32

instance : Inhabited Binary32 := ⟨.nan⟩

-- The number of units in one.
def unitsPerOne : Nat := Nat.pow 2 149

-- How many low bits fall away when a number of this many units is cut to 24 bits.
def shiftFor (units : Nat) : Nat := units.log2 - 23

-- `num / den` units, rounded to 24 significant bits.
def roundUnits (num den : Nat) : Nat :=
  roundDiv num (den * Nat.pow 2 (shiftFor (num / den))) * Nat.pow 2 (shiftFor (num / den))

theorem roundDiv_shiftFor_le (num den : Nat) :
    roundDiv num (den * Nat.pow 2 (shiftFor (num / den))) ≤ Nat.pow 2 24 := by
  refine Nat.le_trans (roundDiv_le_div_succ _ _) ?_
  rw [← Nat.div_div_eq_div_mul]
  refine Nat.succ_le_of_lt ((Nat.div_lt_iff_lt_mul (Nat.two_pow_pos _)).mpr ?_)
  refine Nat.lt_of_lt_of_le Nat.lt_log2_self ?_
  refine Nat.le_trans (Nat.pow_le_pow_right (by decide) ?_) (Nat.le_of_eq (Nat.pow_add 2 24 _))
  unfold shiftFor
  omega

theorem fits_roundUnits {num den : Nat} (h : roundUnits num den < unitsLimit) :
    Fits (roundUnits num den) :=
  Fits.mul_two_pow (roundDiv_shiftFor_le num den) h

-- The number nearest to `num / den` units; beyond the largest finite one it is infinite.
def ofUnits (negative : Bool) (num den : Nat) : Binary32 :=
  if h : roundUnits num den < unitsLimit then .finite negative _ (fits_roundUnits h)
  else .infinite negative

-- The number nearest to `num / den`.
def ofRatio (negative : Bool) (num den : Nat) : Binary32 :=
  ofUnits negative (num * unitsPerOne) den

-- Zero, with its sign.
def zero (negative : Bool) : Binary32 := .finite negative 0 Fits.zero

theorem fits_unitsPerOne : Fits unitsPerOne := by
  have := @Fits.mul_two_pow 1 149 (by decide) (by decide)
  rwa [Nat.one_mul] at this

-- The number one.
def one : Binary32 := .finite false unitsPerOne fits_unitsPerOne

-- The number nearest to `coefficient * 10 ^ exponent`. Exponents far outside the range of finite
-- numbers are settled by the place of the leading digit, without computing the power.
def ofDecimal (negative : Bool) (coefficient : Nat) (exponent : Int) : Binary32 :=
  let place := exponent + (Nat.toDigits 10 coefficient).length
  if coefficient = 0 ∨ place < -45 then zero negative
  else if 40 < place then .infinite negative
  else ofRatio negative (coefficient * Nat.pow 10 exponent.toNat) (Nat.pow 10 (-exponent).toNat)

-- The rounded product. Zero times infinity is not a number.
def mul : Binary32 → Binary32 → Binary32
  | .finite s u _, .finite t v _ => ofUnits (s ^^ t) (u * v) unitsPerOne
  | .infinite s, .infinite t => .infinite (s ^^ t)
  | .infinite s, .finite t v _ => if v = 0 then .nan else .infinite (s ^^ t)
  | .finite s u _, .infinite t => if u = 0 then .nan else .infinite (s ^^ t)
  | .nan, _ => .nan
  | _, .nan => .nan

instance : Mul Binary32 := ⟨mul⟩

-- Zero, of either sign, up to one.
def InUnitInterval : Binary32 → Prop
  | .finite negative units _ => (negative = false ∨ units = 0) ∧ units ≤ unitsPerOne
  | _ => False

instance : DecidablePred InUnitInterval
  | .finite _ _ _ => inferInstanceAs (Decidable (_ ∧ _))
  | .nan => isFalse id
  | .infinite _ => isFalse id

end Binary32

end Palette
