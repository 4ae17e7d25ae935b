import Palette.Proofs.Grammar.Completeness
import Palette.Proofs.Json.Numerals

-- Reading the text of a number, as the alpha of a color is read, gives back the number, and its sign even
-- if it is zero.

namespace Palette

open Grammar (Exponent Mantissa Sign decimal)

variable {point j units grid : Nat} {e place : Int} {ds rest : List Char} {negative : Bool}

-- What a text reads as, if all of it is read.
def Reader.whole? {α : Type} (r : Reader α) (text : String) : Option α :=
  match r text.toList with
  | .accepted a [] => some a
  | _              => none

theorem decimal_eq (ds : List Char) : decimal ds = Nat.ofDigitChars 10 ds 0 := by
  rw [← Reader.decimalValue_eq, Nat.ofDigitChars_eq_foldl, Reader.decimalValue]

theorem decimal_toDigits (n : Nat) : decimal (Nat.toDigits 10 n) = n := by
  rw [decimal_eq, Nat.ofDigitChars_ten_toDigits]

theorem decimal_zeros_append : decimal (List.replicate j '0' ++ ds) = decimal ds := by
  simp [decimal_eq, Nat.ofDigitChars_append]

theorem decimal_zero_cons : decimal ('0' :: ds) = decimal ds :=
  @decimal_zeros_append 1 ds

theorem decimal_append_zeros : decimal (ds ++ List.replicate j '0') = decimal ds * 10 ^ j := by
  simp [decimal_eq, Nat.ofDigitChars_append, Nat.mul_comm]

theorem length_toDigits_mul_pow (hp : 0 < point) :
    (Nat.toDigits 10 (point * 10 ^ j)).length = (Nat.toDigits 10 point).length + j := by
  induction j with
  | zero => simp
  | succ j ih =>
    have hm : point * 10 ^ (j + 1) = 10 * (point * 10 ^ j) + 0 := by ring
    rw [hm, ← Nat.toDigits_append_toDigits (by decide) (by positivity) (by decide),
      List.length_append, ih]
    rfl

namespace Binary32

variable {s fs : List Char}

-- The text is a numeral for a multiple of a power of ten, which may be written with more zeros.
def ReadsAs (s : List Char) (negative : Bool) (coefficient : Nat) (e : Int) : Prop :=
  ∃ j : Nat, Grammar.Numeral s (.decimal negative (coefficient * 10 ^ j) (e - j)) []

namespace ReadsAs

theorem of_numeral (h : Grammar.Numeral s (.decimal negative point e) []) :
    ReadsAs s negative point e :=
  ⟨0, by simpa using h⟩

-- Digits before a point and behind it.
theorem pointed (hd : Json.Digits ds) (hf : Json.Digits fs) (hs : Sign s negative (ds ++ '.' :: fs)) :
    Grammar.Numeral s (.decimal negative (decimal (ds ++ fs)) (-fs.length)) [] := by
  have hm : Mantissa (ds ++ '.' :: (fs ++ [])) (ds, fs) [] :=
    .both (.intro hd.left hd.right) (.intro hf.left hf.right)
  rw [List.append_nil] at hm
  have hn := Grammar.Numeral.decimal hs hm .none
  rwa [Int.zero_sub] at hn

theorem below (hd : Json.Digits ds) (he : -e = j + ds.length)
    (hs : Sign s negative ('0' :: '.' :: (List.replicate j '0' ++ ds))) :
    ReadsAs s negative (decimal ds) e := by
  have hn := pointed digits_zero (@digits_zeros_append ds j hd) hs
  rw [List.singleton_append, decimal_zero_cons, decimal_zeros_append, List.length_append,
    List.length_replicate, Nat.cast_add, ← he, Int.neg_neg] at hn
  exact of_numeral hn

-- Zeros that are added behind all digits are made up for by the exponent.
theorem above (hd : Json.Digits ds) (he : e = j)
    (hs : Sign s negative ((ds ++ List.replicate j '0') ++ ['.', '0'])) :
    ReadsAs s negative (decimal ds) e := by
  have hn := pointed (digits_append hd isDigit_of_mem_zeros) digits_zero hs
  rw [List.append_assoc, ← List.replicate_succ', decimal_append_zeros] at hn
  refine ⟨j + 1, ?_⟩
  rwa [show e - (j + 1 : Nat) = -(['0'].length : Nat) by simp; omega]

theorem around (hd : Json.Digits (ds.take j)) (hf : Json.Digits (ds.drop j))
    (he : -e = (ds.drop j).length) (hs : Sign s negative (ds.take j ++ '.' :: ds.drop j)) :
    ReadsAs s negative (decimal ds) e := by
  have hn := pointed hd hf hs
  rw [List.take_append_drop, ← he, Int.neg_neg] at hn
  exact of_numeral hn

theorem exponent_signed (place : Int) :
    Exponent ('e' :: (if place < 0 then '-' else '+') :: Nat.toDigits 10 place.natAbs) place [] := by
  have ⟨hn, hd⟩ := digits_toDigits place.natAbs
  have he {sign negative} (hs : Sign (sign :: (Nat.toDigits 10 place.natAbs ++ [])) negative _) :
      Exponent ('e' :: _) _ [] :=
    .mark List.mem_cons_self hs (.intro hn hd)
  simp only [List.append_nil, decimal_toDigits] at he
  by_cases h : place < 0
  case pos =>
    have he := he .minus
    rw [if_pos rfl, show -(place.natAbs : Int) = place by omega] at he
    rwa [if_pos h]
  case neg =>
    have he := he .plus
    rw [if_neg (by decide), show (place.natAbs : Int) = place by omega] at he
    rwa [if_neg h]

-- A digit, others behind a point if there are any, and an exponent.
theorem scientific (hd : Json.Digits ds)
    (hs : Sign s negative (ds.take 1 ++ (if (ds.drop 1).isEmpty then [] else '.' :: ds.drop 1) ++
      'e' :: (if place < 0 then '-' else '+') :: Nat.toDigits 10 place.natAbs)) :
    ReadsAs s negative (decimal ds) (place - (ds.drop 1).length) := by
  have ⟨hn, hd⟩ := hd
  apply of_numeral
  cases ds with
  | nil => exact absurd rfl hn
  | cons d ds =>
    have hd := List.forall_mem_cons.mp hd
    have hw {rest} : Grammar.Digits ([d] ++ rest) [d] rest :=
      .intro nofun (List.forall_mem_singleton.mpr hd.left)
    rw [List.append_assoc] at hs
    cases ds with
    | nil => exact .decimal hs (.whole hw) (exponent_signed place)
    | cons f fs =>
      have hf {rest} : Grammar.Digits ((f :: fs) ++ rest) (f :: fs) rest := .intro nofun hd.right
      exact .decimal hs (.both hw hf) (exponent_signed place)

-- The layout puts the point in front of all digits, behind all of them or somewhere among them.
theorem of_layout
    (hs : Sign s negative
      (layout (Nat.toDigits 10 point) (e + (Nat.toDigits 10 point).length - 1))) :
    ReadsAs s negative point e := by
  have hd := digits_toDigits point
  have hl := List.length_pos_of_ne_nil hd.left
  rw [← decimal_toDigits point]
  generalize Nat.toDigits 10 point = ds at hs hd hl
  unfold layout at hs
  split at hs
  case isTrue =>
    split at hs
    case isTrue  => exact below hd (by omega) hs
    case isFalse =>
      extract_lets whole fraction at hs
      rcases Nat.lt_or_ge whole ds.length with hw | hw
      case inl =>
        have hf : fraction ≠ [] := fun he => absurd (List.drop_eq_nil_iff.mp he) (Nat.not_le.mpr hw)
        rw [Nat.sub_eq_zero_of_le hw.le, List.replicate_zero, List.append_nil,
          if_neg (by simpa using hf)] at hs
        refine around (digits_take hd) ⟨hf, fun d hm => hd.right d <| List.mem_of_mem_drop hm⟩ ?_ hs
        rw [List.length_drop]
        omega
      case inr =>
        rw [List.take_of_length_le hw, if_pos (by simpa [fraction] using hw)] at hs
        exact above hd (by omega) hs
  case isFalse =>
    have hr := scientific hd hs
    rwa [List.length_drop, show e + (ds.length : Int) - 1 - (ds.length - 1 : Nat) = e by omega] at hr

end ReadsAs

-- The leading digit is not at a place where numbers are zero or infinite without being rounded.
theorem ofDecimal_of_readsBack (hu : units ≠ 0) (fits : Fits units) (h : readsBack units grid point) :
    ofDecimal negative (point * 10 ^ j) (finestGrid + grid - j) = .finite negative units fits := by
  have hp := pos_of_readsBack h hu
  have hl : (Nat.toDigits 10 point).length + grid ≤ 84 := by
    rw [← length_toDigits_mul_pow hp, Nat.length_toDigits_le_iff (by decide) (by decide)]
    exact lt_of_readsBack h fits
  have hn : point * 10 ^ j ≠ 0 := by positivity
  have hf : finestGrid = -45 := rfl
  have hr : roundUnits (point * 10 ^ j * Nat.pow 10 (finestGrid + grid - j).toNat * unitsPerOne)
      (Nat.pow 10 (-(finestGrid + grid - j)).toNat) = units := by
    rw [← readsBack_iff.mp h]
    have hx : 10 ^ j * 10 ^ (finestGrid + grid - j).toNat * 10 ^ 45 =
        10 ^ grid * 10 ^ (-(finestGrid + grid - j)).toNat := by
      rw [← Nat.pow_add, ← Nat.pow_add, ← Nat.pow_add]
      congr 1
      omega
    refine roundUnits_congr (Nat.pow_pos (by decide)) (by decide) ?_
    simp only [Nat.pow_eq]
    calc _ = point * unitsPerOne * (10 ^ j * 10 ^ (finestGrid + grid - j).toNat * 10 ^ 45) := by ac_rfl
      _ = _ := by rw [hx]; ac_rfl
  unfold ofDecimal
  extract_lets place
  have hpl : place = finestGrid + grid + (Nat.toDigits 10 point).length := by
    simp only [place, length_toDigits_mul_pow hp]
    omega
  rw [if_neg (by omega), if_neg (by omega), ofRatio, ofUnits, dif_pos (hr ▸ fits.left)]
  simp only [hr]

theorem numeral_of_text (fits : Fits units) :
    ∃ n, Grammar.Numeral (finite negative units fits).text.toList n [] ∧
      n.toBinary32 = finite negative units fits := by
  have hs {m : List Char} : Sign ((if negative then ['-'] else []) ++ m) negative m := by
    cases negative
    · exact .none
    · exact .minus
  rw [text, String.toList_ofList, magnitudeText]
  by_cases hu : units = 0
  case pos =>
    subst hu
    exact ⟨_, ReadsAs.pointed digits_zero digits_zero hs, rfl⟩
  case neg =>
    have h := @readsBack_shortestFrom units coarsestGrid fits
    rw [if_neg hu]
    generalize shortestFrom units coarsestGrid = shortest at h ⊢
    obtain ⟨point, grid⟩ := shortest
    obtain ⟨j, hn⟩ := @ReadsAs.of_layout point (finestGrid + grid) negative _ hs
    exact ⟨_, hn, ofDecimal_of_readsBack hu fits h⟩

theorem whole?_text (negative : Bool) (fits : Fits units) :
    (Reader.numeral.whole? (finite negative units fits).text).map Numeral.toBinary32 =
      some (finite negative units fits) := by
  have ⟨n, hn, he⟩ := @numeral_of_text units negative fits
  rw [Reader.whole?, Reader.numeral_complete hn (by simp [Reader.StartsIn])]
  exact congrArg some he

end Binary32

end Palette
