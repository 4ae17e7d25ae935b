import Palette.Proofs.Grammar.Rules
import Palette.Proofs.Number.Fixed
import Palette.Proofs.Number.UnitInterval

-- Numbers between zero and one with two decimal places. What is written are the nearest hundredths, and
-- the only sign that there may be is that of zero.

namespace Palette

theorem roundDiv_cases (num den : Nat) :
    (roundDiv num den = num / den ∧ 2 * (num % den) ≤ den) ∨
    (roundDiv num den = num / den + 1 ∧ den ≤ 2 * (num % den)) := by
  unfold roundDiv
  split
  case isTrue h => exact .inl ⟨rfl, h.le⟩
  case isFalse h =>
    split
    case isTrue h' => exact .inr ⟨rfl, h'.le⟩
    case isFalse h' =>
      rcases Nat.mod_two_eq_zero_or_one (num / den) with he | he <;> rw [he]
      · exact .inl ⟨rfl, by omega⟩
      · exact .inr ⟨rfl, by omega⟩

theorem abs_div_sub_roundDiv_le (num : Nat) {den : Nat} (h : 0 < den) :
    |(num : ℚ) / den - roundDiv num den| ≤ 1 / 2 := by
  have hp : (0 : ℚ) < den := Nat.cast_pos.mpr h
  have hn : (num : ℚ) / den = (num / den : Nat) + (num % den : Nat) / den := by
    have hm : (den * (num / den : Nat) + (num % den : Nat) : ℚ) = num :=
      mod_cast Nat.div_add_mod num den
    rw [← hm, add_div, mul_div_cancel_left₀ _ hp.ne']
  rcases roundDiv_cases num den with ⟨he, hc⟩ | ⟨he, hc⟩ <;> rw [he, hn]
  case inl =>
    have hc : ((num % den : Nat) : ℚ) / den ≤ 1 / 2 := by
      rw [div_le_div_iff₀ hp two_pos]
      exact_mod_cast (by omega : num % den * 2 ≤ 1 * den)
    rwa [add_sub_cancel_left, abs_of_nonneg (by positivity)]
  case inr =>
    have hc : 1 / 2 ≤ ((num % den : Nat) : ℚ) / den := by
      rw [div_le_div_iff₀ two_pos hp]
      exact_mod_cast (by omega : 1 * den ≤ num % den * 2)
    have hl : ((num % den : Nat) : ℚ) / den < 1 :=
      (div_lt_one hp).mpr <| mod_cast Nat.mod_lt num h
    rw [abs_le, Nat.cast_succ]
    constructor <;> linarith

def hundredths (n : Nat) : String :=
  String.ofList [Nat.digitChar (n / 100), '.', Nat.digitChar (n / 10 % 10), Nat.digitChar (n % 10)]

-- The text is made of digits and a point and reads as that many hundredths, which are closest to what
-- the number denotes.
structure Binary32.InHundredths (x : Binary32) (text : String) (n : Nat) : Prop where
  le      : n ≤ 100
  text_eq : text = hundredths n
  reads   : Grammar.Numeral text.toList (.decimal false n (-2)) []
  nearest : ∃ q, x.toRat? = some q ∧ |100 * q - n| ≤ 1 / 2

theorem numeral_of_isDigit {a b c : Char} (h : ∀ d ∈ [a, b, c], d.isDigit) :
    Grammar.Numeral [a, '.', b, c] (.decimal false (Grammar.decimal [a, b, c]) (-2)) [] := by
  have ⟨ha, hbc⟩ := List.forall_mem_cons.mp h
  have whole : Grammar.Digits ([a] ++ ['.', b, c]) [a] ['.', b, c] :=
    .intro (by simp) (by simpa using ha)
  have fraction : Grammar.Digits ([b, c] ++ []) [b, c] [] := .intro (by simp) hbc
  exact .decimal .none (.both whole fraction) .none

theorem numeral_hundredths {n : Nat} (h : n ≤ 100) :
    Grammar.Numeral (hundredths n).toList (.decimal false n (-2)) [] := by
  have digits : ∀ n ≤ 100,
      let ds := [Nat.digitChar (n / 100), Nat.digitChar (n / 10 % 10), Nat.digitChar (n % 10)]
      ds.all Char.isDigit ∧ Grammar.decimal ds = n := by
    decide
  have ⟨hd, he⟩ := digits n h
  have hn := numeral_of_isDigit <| List.all_eq_true.mp hd
  rwa [he, ← String.toList_ofList (l := [_, _, _, _])] at hn

namespace Binary32

variable {x : Binary32}

theorem pointed_two : ∀ n ≤ 100, String.ofList (pointed 2 n) = hundredths n := by
  decide

namespace InUnitInterval

theorem eq_zero (h : x.InUnitInterval) (hn : x.isNegative = true) : x = zero true := by
  match x, h with
  | .finite .., ⟨hs, _⟩ =>
    obtain rfl : _ = true := hn
    obtain rfl := hs.resolve_left nofun
    rfl

theorem inHundredths (h : x.InUnitInterval) (hn : x.isNegative = false) :
    ∃ n, x.InHundredths (x.fixed 2) n := by
  match x, h with
  | .finite _ units fits, h =>
    obtain rfl : _ = false := hn
    have hl : roundDiv (units * 100) unitsPerOne ≤ 100 :=
      roundDiv_le_of_le_mul unitsPerOne_pos <| Nat.mul_comm .. ▸ Nat.mul_le_mul_left _ h.right
    have ht : (finite false units fits).fixed 2 = hundredths (roundDiv (units * 100) unitsPerOne) :=
      pointed_two _ hl
    refine ⟨_, hl, ht, ht ▸ numeral_hundredths hl, _, h.toRat?_eq, ?_⟩
    have hr := abs_div_sub_roundDiv_le (units * 100) unitsPerOne_pos
    rwa [Nat.cast_mul, mul_comm (units : ℚ), mul_div_assoc] at hr

end InUnitInterval

end Binary32

end Palette
