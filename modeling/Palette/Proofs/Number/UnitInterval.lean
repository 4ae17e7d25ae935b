import Mathlib.Algebra.Order.Field.Rat
import Mathlib.Data.Nat.Log
import Mathlib.Tactic.Linarith
import Mathlib.Tactic.Positivity
import Palette.Number.Binary32

-- What numbers denote, and what multiplying does between zero and one. The exact product there lies
-- below both of its factors, and each of these can be held as it is, so that rounding does not go
-- beyond it.

namespace Palette

variable {units bound shift num den : Nat}

-- All bits of a number that fall away at its own size are zero.
theorem Fits.two_pow_dvd (h : Fits units) (hs : shift ≤ Binary32.shiftFor units) :
    2 ^ shift ∣ units := by
  obtain ⟨-, m, k, rfl, hm⟩ := h
  by_cases h0 : m = 0
  case pos => simp [h0]
  case neg =>
    have hl : (m * 2 ^ k).log2 < 24 + k := by
      rw [Nat.log2_lt (by positivity), Nat.pow_add]
      exact Nat.mul_lt_mul_of_pos_right hm <| Nat.two_pow_pos k
    have hk : shift ≤ k := hs.trans <| by
      show (m * 2 ^ k).log2 - 23 ≤ k
      omega
    exact (Nat.pow_dvd_pow 2 hk).mul_left m

namespace Binary32

variable {x y z : Binary32} {negative negative' : Bool} {units' : Nat}
variable {fits : Fits units} {fits' : Fits units'}

theorem shiftFor_mono (h : units ≤ bound) : shiftFor units ≤ shiftFor bound := by
  simp only [shiftFor, Nat.log2_eq_log_two]
  exact Nat.sub_le_sub_right (Nat.log_mono_right h) 23

-- Nothing is rounded beyond what fits.
theorem roundUnits_le (hb : Fits bound) (hd : 0 < den) (h : num ≤ bound * den) :
    roundUnits num den ≤ bound := by
  have hs : shiftFor (num / den) ≤ shiftFor bound :=
    shiftFor_mono <| Nat.div_le_of_le_mul <| Nat.mul_comm .. ▸ h
  obtain ⟨k, hk⟩ := hb.two_pow_dvd hs
  have hr : num ≤ k * (den * 2 ^ shiftFor (num / den)) := by
    calc num ≤ bound * den := h
      _ = k * (den * 2 ^ shiftFor (num / den)) := by rw [hk]; ac_rfl
  calc roundUnits num den ≤ k * 2 ^ shiftFor (num / den) :=
        Nat.mul_le_mul_right _ <| roundDiv_le_of_le_mul (Nat.mul_pos hd <| Nat.two_pow_pos _) hr
    _ = bound := by rw [hk, Nat.mul_comm]

theorem ofUnits_eq_finite (negative : Bool) (hb : Fits bound) (hd : 0 < den) (h : num ≤ bound * den) :
    ∃ fits, ofUnits negative num den = .finite negative (roundUnits num den) fits := by
  rw [ofUnits, dif_pos <| (roundUnits_le hb hd h).trans_lt hb.left]
  exact ⟨_, rfl⟩

theorem unitsPerOne_pos : 0 < unitsPerOne :=
  Nat.two_pow_pos 149

-- Whether there is a minus sign, which zero may have, too.
def isNegative : Binary32 → Bool
  | .nan                                        => false
  | .infinite negative | .finite negative _ _ => negative

theorem isNegative_ofUnits : (ofUnits negative num den).isNegative = negative := by
  unfold ofUnits
  split <;> rfl

-- What a number denotes, if it does denote one.
def toRat? : Binary32 → Option ℚ
  | .finite negative units _ => some ((if negative then -(units : ℚ) else units) / unitsPerOne)
  | _                        => none

-- Both are numbers, and the first one is not the greater one.
def AtMost (x y : Binary32) : Prop :=
  ∃ p q, x.toRat? = some p ∧ y.toRat? = some q ∧ p ≤ q

theorem AtMost.trans (h : x.AtMost y) (h' : y.AtMost z) : x.AtMost z := by
  obtain ⟨p, q, hp, hq, hl⟩ := h
  obtain ⟨q', r, hq', hr, hl'⟩ := h'
  cases hq.symm.trans hq'
  exact ⟨p, r, hp, hr, hl.trans hl'⟩

namespace InUnitInterval

-- A sign makes no difference to zero.
theorem toRat?_eq (h : (finite negative units fits).InUnitInterval) :
    (finite negative units fits).toRat? = some ((units : ℚ) / unitsPerOne) := by
  obtain ⟨rfl | rfl, _⟩ := h <;> simp [toRat?]

theorem atMost (h : (finite negative units fits).InUnitInterval)
    (h' : (finite negative' units' fits').InUnitInterval) (hl : units ≤ units') :
    (finite negative units fits).AtMost (finite negative' units' fits') :=
  ⟨_, _, h.toRat?_eq, h'.toRat?_eq, by gcongr⟩

theorem atMost_self (h : x.InUnitInterval) : x.AtMost x := by
  match x, h with
  | .finite .., h => exact h.atMost h le_rfl

end InUnitInterval

-- What is tested of a number is what it denotes.
theorem inUnitInterval_iff : x.InUnitInterval ↔ ∃ q, x.toRat? = some q ∧ 0 ≤ q ∧ q ≤ 1 := by
  have hp : (0 : ℚ) < unitsPerOne := Nat.cast_pos.mpr unitsPerOne_pos
  match x with
  | .nan | .infinite _ => exact ⟨nofun, nofun⟩
  | .finite negative units fits =>
    constructor
    case mp =>
      intro h
      refine ⟨_, h.toRat?_eq, by positivity, ?_⟩
      exact (div_le_one hp).mpr <| Nat.cast_le.mpr h.right
    case mpr =>
      rintro ⟨_, ⟨⟩, h0, h1⟩
      cases negative
      case false => exact ⟨.inl rfl, by simpa [div_le_one hp] using h1⟩
      case true =>
        have hu : (units : ℚ) ≤ 0 := by simpa [le_div_iff₀ hp] using h0
        have hu : units = 0 := by simpa using hu
        exact ⟨.inr hu, hu ▸ Nat.zero_le _⟩

-- Rounding a product goes beyond neither factor, and the sign is that of the exact one.
theorem finite_mul (h : units ≤ unitsPerOne) (h' : units' ≤ unitsPerOne) :
    ∃ product fits'', finite negative units fits * finite negative' units' fits' =
        finite (negative ^^ negative') product fits'' ∧ product ≤ units ∧ product ≤ units' := by
  have hl : units * units' ≤ units * unitsPerOne := Nat.mul_le_mul_left _ h'
  have hr : units * units' ≤ units' * unitsPerOne := Nat.mul_comm .. ▸ Nat.mul_le_mul_left _ h
  have ⟨fits'', he⟩ := ofUnits_eq_finite (negative ^^ negative') fits unitsPerOne_pos hl
  exact ⟨_, fits'', he, roundUnits_le fits unitsPerOne_pos hl, roundUnits_le fits' unitsPerOne_pos hr⟩

namespace InUnitInterval

theorem one : Binary32.one.InUnitInterval :=
  ⟨.inl rfl, le_rfl⟩

theorem ofRatio (hd : 0 < den) (h : num ≤ den) : (ofRatio false num den).InUnitInterval := by
  have hl : num * unitsPerOne ≤ unitsPerOne * den := Nat.mul_comm .. ▸ Nat.mul_le_mul_left _ h
  have ⟨_, he⟩ := ofUnits_eq_finite false fits_unitsPerOne hd hl
  rw [Binary32.ofRatio, he]
  exact ⟨.inl rfl, roundUnits_le fits_unitsPerOne hd hl⟩

theorem isNegative_mul (h : x.InUnitInterval) (h' : y.InUnitInterval) :
    (x * y).isNegative = (x.isNegative ^^ y.isNegative) := by
  match x, y, h, h' with
  | .finite .., .finite .., _, _ => exact isNegative_ofUnits

theorem mul (h : x.InUnitInterval) (h' : y.InUnitInterval) :
    (x * y).InUnitInterval ∧ (x * y).AtMost x ∧ (x * y).AtMost y := by
  match x, y, h, h' with
  | .finite negative .., .finite negative' .., h, h' =>
    obtain ⟨product, fits, he, hl, hr⟩ := finite_mul h.right h'.right
    have hu : (finite (negative ^^ negative') product fits).InUnitInterval := by
      refine ⟨?_, hl.trans h.right⟩
      rcases h.left with rfl | rfl
      · rcases h'.left with rfl | rfl
        · exact .inl rfl
        · exact .inr <| Nat.le_zero.mp hr
      · exact .inr <| Nat.le_zero.mp hl
    exact he ▸ ⟨hu, hu.atMost h hl, hu.atMost h' hr⟩

end InUnitInterval

end Binary32

end Palette
