import Palette.Number.Shortest
import Palette.Proofs.Number.Hundredths

-- The shortest text of a number reads back to it. So does every point of a grid that is not rejected,
-- and the point of the finest grid that is next to a number is less than half a unit away from it.

namespace Palette

variable {num den num' den' units grid point n k : Nat}

-- Only the quotient is rounded.

theorem roundDiv_mul_mul (num den : Nat) (hk : 0 < k) :
    roundDiv (num * k) (den * k) = roundDiv num den := by
  unfold roundDiv
  rw [Nat.mul_div_mul_right _ _ hk, Nat.mul_mod_mul_right]
  simp only [← Nat.mul_assoc, Nat.mul_lt_mul_right hk]

theorem roundDiv_congr (hd : 0 < den) (hd' : 0 < den') (h : num * den' = num' * den) :
    roundDiv num den = roundDiv num' den' :=
  calc roundDiv num den = roundDiv (num * den') (den * den') := (roundDiv_mul_mul _ _ hd').symm
    _ = roundDiv (num' * den) (den' * den) := by rw [h, Nat.mul_comm den]
    _ = roundDiv num' den' := roundDiv_mul_mul _ _ hd

theorem roundDiv_eq_of_near (hd : 0 < den) (h : |(num : ℚ) / den - n| < 1 / 2) :
    roundDiv num den = n := by
  have hr := abs_div_sub_roundDiv_le num hd
  have hn : |((roundDiv num den : ℤ) - n : ℚ)| < 1 := by
    rw [abs_lt] at h ⊢
    rw [abs_le] at hr
    constructor <;> push_cast <;> linarith
  have hz : (roundDiv num den : ℤ) - n = 0 := Int.abs_lt_one_iff.mp <| mod_cast hn
  omega

-- The nearest point of a finer grid lies less than half a step of the other one away.
theorem abs_roundDiv_mul_div_sub_lt (hd : 0 < den) (hl : den < num) :
    |((roundDiv (n * num) den * den : Nat) : ℚ) / num - n| < 1 / 2 := by
  have hr := abs_div_sub_roundDiv_le (n * num) hd
  have hp : (0 : ℚ) < den := Nat.cast_pos.mpr hd
  have hn : (0 : ℚ) < num := Nat.cast_pos.mpr <| hd.trans hl
  have hc : (den : ℚ) / num < 1 := (div_lt_one hn).mpr <| Nat.cast_lt.mpr hl
  have he : ((roundDiv (n * num) den * den : Nat) : ℚ) / num - n =
      -(((n * num : Nat) : ℚ) / den - roundDiv (n * num) den) * (den / num) := by
    have he : (n * num : ℚ) / den * (den / num) = n := by
      rw [div_mul_div_cancel₀ hp.ne', mul_div_cancel_right₀ _ hn.ne']
    push_cast
    rw [neg_sub, sub_mul, he, mul_div_assoc]
  rw [he, abs_mul, abs_neg, abs_of_pos (div_pos hp hn)]
  calc _ ≤ 1 / 2 * ((den : ℚ) / num) := by gcongr
    _ < 1 / 2 := mul_lt_of_lt_one_right one_half_pos hc

namespace Binary32

theorem roundUnits_eq (num den : Nat) :
    roundUnits num den =
      roundDiv num (den * 2 ^ shiftFor (num / den)) * 2 ^ shiftFor (num / den) :=
  rfl

theorem roundUnits_congr (hd : 0 < den) (hd' : 0 < den') (h : num * den' = num' * den) :
    roundUnits num den = roundUnits num' den' := by
  have hq : num / den = num' / den' := by
    rw [← Nat.mul_div_mul_right num den hd', h, Nat.mul_comm den, Nat.mul_div_mul_right _ _ hd]
  have hs := Nat.two_pow_pos (shiftFor (num' / den'))
  rw [roundUnits_eq, roundUnits_eq, hq, roundDiv_congr (Nat.mul_pos hd hs) (Nat.mul_pos hd' hs)]
  rw [← Nat.mul_assoc, h, Nat.mul_assoc]

-- What is closer than half a unit to something that fits is rounded to it, since it is even closer when
-- measured in more than one unit.
theorem roundUnits_eq_of_near (hu : Fits units) (hd : 0 < den) (h : |(num : ℚ) / den - units| < 1 / 2) :
    roundUnits num den = units := by
  have hp : (0 : ℚ) < den := Nat.cast_pos.mpr hd
  have hq : num / den ≤ units := by
    have hl := (abs_lt.mp h).right
    refine Nat.le_of_lt_succ <| (Nat.div_lt_iff_lt_mul hd).mpr ?_
    rw [sub_lt_iff_lt_add', div_lt_iff₀ hp] at hl
    have : (num : ℚ) < (units + 1 : Nat) * den := hl.trans <| by push_cast; gcongr; linarith
    exact_mod_cast this
  obtain ⟨k, hk⟩ := hu.two_pow_dvd <| shiftFor_mono hq
  have hs : (1 : ℚ) ≤ 2 ^ shiftFor (num / den) := one_le_pow₀ one_le_two
  have hn : |(num : ℚ) / (den * 2 ^ shiftFor (num / den) : Nat) - k| < 1 / 2 := by
    have he : (num : ℚ) / (den * 2 ^ shiftFor (num / den) : Nat) - k =
        (num / den - units) / 2 ^ shiftFor (num / den) := by
      rw [congrArg Nat.cast hk, sub_div]
      push_cast
      rw [div_div, mul_div_cancel_left₀ _ (zero_lt_one.trans_le hs).ne']
    rw [he, abs_div, abs_of_pos (zero_lt_one.trans_le hs)]
    exact (div_le_self (abs_nonneg _) hs).trans_lt h
  rw [roundUnits_eq, roundDiv_eq_of_near (Nat.mul_pos hd <| Nat.two_pow_pos _) hn]
  exact (Nat.mul_comm ..).trans hk.symm

-- What is rounded does not fall below a power of two.
theorem two_pow_le_roundUnits (h : 2 ^ k ≤ num / den) : 2 ^ k ≤ roundUnits num den := by
  have hq : num / den ≠ 0 := Nat.ne_of_gt <| (Nat.two_pow_pos k).trans_le h
  have hs : shiftFor (num / den) ≤ (num / den).log2 := Nat.sub_le ..
  have hl : 2 ^ ((num / den).log2 - shiftFor (num / den)) ≤
      roundDiv num (den * 2 ^ shiftFor (num / den)) := by
    refine le_trans ?_ <| div_le_roundDiv ..
    rw [← Nat.div_div_eq_div_mul, Nat.le_div_iff_mul_le (Nat.two_pow_pos _), ← Nat.pow_add,
      Nat.sub_add_cancel hs]
    exact Nat.log2_self_le hq
  calc 2 ^ k ≤ 2 ^ (num / den).log2 := Nat.pow_le_pow_right two_pos <| (Nat.le_log2 hq).mpr h
    _ = 2 ^ ((num / den).log2 - shiftFor (num / den)) * 2 ^ shiftFor (num / den) := by
      rw [← Nat.pow_add, Nat.sub_add_cancel hs]
    _ ≤ roundUnits num den := Nat.mul_le_mul_right _ hl

theorem readsBack_iff :
    readsBack units grid point ↔
      roundUnits (point * Nat.pow 10 grid * unitsPerOne) (Nat.pow 10 45) = units :=
  decide_eq_true_iff

theorem readsBack_of_onGrid? (h : onGrid? units grid = some point) : readsBack units grid point := by
  unfold onGrid? at h
  extract_lets num den near far at h
  split at h
  case isTrue hr => exact Option.some.inj h ▸ hr
  case isFalse =>
    split at h
    case isTrue hr => exact Option.some.inj h ▸ hr
    case isFalse   => cases h

theorem coarsestFrom_of {find? : Nat → Option Nat} {last : Nat} {P : Nat → Nat → Prop} (hl : P 0 last)
    (hf : ∀ grid point, find? grid = some point → P grid point) :
    P (coarsestFrom find? last grid).2 (coarsestFrom find? last grid).1 := by
  induction grid with
  | zero => exact hl
  | succ grid ih =>
    rw [coarsestFrom]
    split
    case h_1 he => exact hf _ _ he
    case h_2    => exact ih

-- A step of the finest grid is less than one unit.
theorem readsBack_last (hu : Fits units) :
    readsBack units 0 (roundDiv (units * Nat.pow 10 45) unitsPerOne) := by
  have hl : unitsPerOne < Nat.pow 10 45 := by decide
  have hn := @abs_roundDiv_mul_div_sub_lt _ _ units unitsPerOne_pos hl
  rw [readsBack_iff]
  refine roundUnits_eq_of_near hu (unitsPerOne_pos.trans hl) ?_
  rwa [show Nat.pow 10 0 = 1 from rfl, Nat.mul_one]

theorem readsBack_shortestFrom (hu : Fits units) :
    readsBack units (shortestFrom units grid).2 (shortestFrom units grid).1 := by
  rw [shortestFrom]
  refine @coarsestFrom_of grid (onGrid? units) _ (readsBack units · ·) (readsBack_last hu) fun _ _ h => ?_
  exact readsBack_of_onGrid? h

section

variable (h : readsBack units grid point)

include h

-- Zero reads back to nothing but zero.
theorem pos_of_readsBack (hu : units ≠ 0) : 0 < point := by
  refine Nat.pos_of_ne_zero fun he => hu ?_
  rw [← readsBack_iff.mp h, he, Nat.zero_mul, Nat.zero_mul, roundUnits, roundDiv_zero_left, Nat.zero_mul]

-- What is far beyond all finite numbers reads back to none of them.
theorem lt_of_readsBack (hu : Fits units) : point * 10 ^ grid < 10 ^ 84 := by
  by_contra hc
  have hq : unitsLimit ≤ point * Nat.pow 10 grid * unitsPerOne / Nat.pow 10 45 := by
    rw [Nat.le_div_iff_mul_le (by decide)]
    calc unitsLimit * Nat.pow 10 45 ≤ 10 ^ 84 * unitsPerOne := by decide
      _ ≤ point * Nat.pow 10 grid * unitsPerOne := Nat.mul_le_mul_right _ <| Nat.le_of_not_lt hc
  -- The exponent is kept apart, so that nobody evaluates the power.
  have pow m n : ∃ k, Nat.pow 2 m * Nat.pow 2 n = 2 ^ k := ⟨m + n, (Nat.pow_add ..).symm⟩
  obtain ⟨k, hk⟩ : ∃ k, unitsLimit = 2 ^ k := pow 24 253
  rw [hk] at hq
  have hl := two_pow_le_roundUnits hq
  rw [readsBack_iff.mp h, ← hk] at hl
  exact absurd hu.left <| Nat.not_lt.mpr hl

end

end Binary32

end Palette
