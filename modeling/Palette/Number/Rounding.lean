-- Rounding a quotient of natural numbers to the nearest one, a tie going to the even neighbour.
-- The lemmas say that rounding keeps order and leaves whole quotients alone.

namespace Palette

-- The natural number nearest to `num / den`; a tie goes to the even neighbour.
def roundDiv (num den : Nat) : Nat :=
  if 2 * (num % den) < den then num / den
  else if den < 2 * (num % den) then num / den + 1
  else num / den + num / den % 2

theorem div_le_roundDiv (num den : Nat) : num / den ≤ roundDiv num den := by
  unfold roundDiv
  split
  · exact Nat.le_refl _
  · split
    · exact Nat.le_succ _
    · exact Nat.le_add_right _ _

theorem roundDiv_le_div_succ (num den : Nat) : roundDiv num den ≤ num / den + 1 := by
  unfold roundDiv
  have := Nat.mod_lt (num / den) (by decide : 0 < 2)
  split
  · exact Nat.le_succ _
  · split <;> omega

theorem roundDiv_mul_right (n : Nat) {den : Nat} (h : 0 < den) : roundDiv (n * den) den = n := by
  simp [roundDiv, Nat.mul_div_cancel n h, h]

theorem roundDiv_zero_left (den : Nat) : roundDiv 0 den = 0 := by
  simp [roundDiv]

-- A bound that is itself a whole quotient survives rounding, from above and from below.

theorem roundDiv_le_of_le_mul {num den bound : Nat} (h : 0 < den) (le : num ≤ bound * den) :
    roundDiv num den ≤ bound := by
  rcases Nat.lt_or_ge (num / den) bound with lt | ge
  · exact Nat.le_trans (roundDiv_le_div_succ num den) lt
  · have eq : num = bound * den :=
      Nat.le_antisymm le (Nat.le_trans (Nat.mul_le_mul_right den ge) (Nat.div_mul_le_self num den))
    exact Nat.le_of_eq (by rw [eq, roundDiv_mul_right bound h])

end Palette
