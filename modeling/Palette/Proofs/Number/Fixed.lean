import Palette.Number.Fixed

-- Numbers with a fixed count of decimal places are made of plain characters, and the digits of one tell
-- what was rounded to.

namespace Palette.Binary32

variable {places n zeros : Nat} {x : Binary32} {c : Char}

theorem isDigit_of_mem_padded (h : c ∈ List.replicate zeros '0' ++ Nat.toDigits 10 n) :
    c.isDigit := by
  cases List.mem_append.mp h with
  | inl h => exact List.eq_of_mem_replicate h ▸ rfl
  | inr h => exact Nat.isDigit_of_mem_toDigits (by decide) (by decide) h

-- The point stands somewhere among digits.
theorem pointed_eq_append (places n : Nat) :
    ∃ front back zeros, pointed places n = front ++ '.' :: back ∧
      front ++ back = List.replicate zeros '0' ++ Nat.toDigits 10 n :=
  ⟨_, _, _, rfl, List.take_append_drop ..⟩

theorem mem_pointed (h : c ∈ pointed places n) : c.isDigit ∨ c = '.' := by
  have ⟨front, back, zeros, he, hp⟩ := pointed_eq_append places n
  rw [he, List.mem_append, List.mem_cons, or_left_comm, ← List.mem_append, hp] at h
  exact h.symm.imp_left isDigit_of_mem_padded

theorem ofDigitChars_pointed :
    Nat.ofDigitChars 10 ((pointed places n).filter Char.isDigit) 0 = n := by
  have ⟨front, back, zeros, he, hp⟩ := pointed_eq_append places n
  have hd : (pointed places n).filter Char.isDigit = front ++ back := by
    rw [he, List.filter_append, List.filter_cons_of_neg (by decide), ← List.filter_append]
    exact List.filter_eq_self.mpr fun c hc => isDigit_of_mem_padded <| hp ▸ hc
  simp [hd, hp, Nat.ofDigitChars_append]

theorem pointed_injective : Function.Injective (pointed places) := by
  intro n m h
  rw [← @ofDigitChars_pointed places n, h, ofDigitChars_pointed]

theorem toList_fixed_finite {negative : Bool} {units : Nat} {fits : Fits units} :
    ((finite negative units fits).fixed places).toList =
      (if negative then ['-'] else []) ++
        pointed places (roundDiv (units * Nat.pow 10 places) unitsPerOne) :=
  String.toList_ofList

theorem mem_fixed (h : c ∈ (x.fixed places).toList) : c.isAlphanum ∨ c = '.' ∨ c = '-' := by
  cases x with
  | nan =>
    have plain : "NaN".toList.all Char.isAlphanum := by decide
    exact .inl <| List.all_eq_true.mp plain c h
  | infinite negative =>
    have plain : ((infinite negative).fixed 0).toList.all fun c => c.isAlphanum || c == '-' := by
      cases negative <;> decide
    have hc := Bool.or_eq_true_iff.mp <| List.all_eq_true.mp plain c h
    exact hc.imp_right fun he => .inr <| eq_of_beq he
  | finite negative =>
    rw [toList_fixed_finite, List.mem_append] at h
    cases h with
    | inl h => cases negative <;> simp_all
    | inr h =>
      refine (mem_pointed h).imp (fun h => ?_) .inl
      simp [Char.isAlphanum, h]

end Palette.Binary32
