import Palette.Proofs.Json.Grammar
import Palette.Proofs.Number.Shortest

-- The texts of numbers are numerals, as JSON wants them.

namespace Palette

open Json (Digits Whole Fraction Exponent Magnitude)

theorem digits_toDigits (n : Nat) : Digits (Nat.toDigits 10 n) :=
  ⟨Nat.toDigits_ne_nil, fun _ hd => Nat.isDigit_of_mem_toDigits (by decide) (by decide) hd⟩

-- By induction on the number, which begins like a tenth of it unless it is a digit.
theorem head?_toDigits {n : Nat} (h : 0 < n) : (Nat.toDigits 10 n).head? ≠ some '0' := by
  induction n using Nat.strongRecOn
  case ind n ih =>
    by_cases hn : n < 10
    case pos =>
      have all : ∀ n < 10, 0 < n → Nat.digitChar n ≠ '0' := by decide
      rw [Nat.toDigits_of_lt_base hn, List.head?_cons]
      exact fun he => all n hn h <| Option.some.inj he
    case neg =>
      have hl : n / 10 < n := Nat.div_lt_self h (by decide)
      have hp : 0 < n / 10 := Nat.div_pos (Nat.le_of_not_lt hn) (by decide)
      have ⟨d, ds, hd⟩ := List.exists_cons_of_ne_nil <| @Nat.toDigits_ne_nil (n / 10) 10
      rw [Nat.toDigits_of_base_le (by decide) (Nat.le_of_not_lt hn), hd]
      have hn := ih _ hl hp
      rwa [hd] at hn

theorem whole_toDigits (n : Nat) : Whole (Nat.toDigits 10 n) := by
  cases Nat.eq_zero_or_pos n with
  | inl h => exact .inl <| h ▸ rfl
  | inr h => exact .inr ⟨digits_toDigits n, head?_toDigits h⟩

theorem numeral_toDigits (n : Nat) : Json.Numeral (Nat.toDigits 10 n) := by
  have hn := Json.Numeral.intro List.mem_cons_self <| .intro (whole_toDigits n) .none .none
  simpa using hn

namespace Binary32

variable {units : Nat} {place : Int} {ds ds' : List Char}

theorem digits_zero : Digits ['0'] :=
  ⟨List.cons_ne_nil _ _, List.forall_mem_singleton.mpr rfl⟩

theorem isDigit_of_mem_zeros {n : Nat} : ∀ d ∈ List.replicate n '0', d.isDigit :=
  fun _ hd => List.eq_of_mem_replicate hd ▸ rfl

theorem digits_append (h : Digits ds) (hd : ∀ d ∈ ds', d.isDigit) : Digits (ds ++ ds') :=
  ⟨List.append_ne_nil_of_left_ne_nil h.left _, List.forall_mem_append.mpr ⟨h.right, hd⟩⟩

theorem digits_zeros_append {n : Nat} (hd : Digits ds) : Digits (List.replicate n '0' ++ ds) :=
  ⟨List.append_ne_nil_of_right_ne_nil _ hd.left,
    List.forall_mem_append.mpr ⟨isDigit_of_mem_zeros, hd.right⟩⟩

theorem digits_take {n : Nat} (hd : Digits ds) : Digits (ds.take (n + 1)) :=
  ⟨by simpa using hd.left, fun c hc => hd.right c (List.mem_of_mem_take hc)⟩

-- Digits that begin with something other than zero do so however many of them are taken.
theorem whole_take {n : Nat} (hd : Digits ds) (hz : ds.head? ≠ some '0') (h : ∀ d ∈ ds', d.isDigit) :
    Whole (ds.take (n + 1) ++ ds') := by
  refine .inr ⟨digits_append (digits_take hd) h, ?_⟩
  cases ds with
  | nil       => exact absurd rfl hd.left
  | cons d ds => exact hz

theorem fraction_drop {n : Nat} (hd : Digits ds) :
    Fraction (if (ds.drop n).isEmpty then [] else '.' :: ds.drop n) ∧
    Fraction ('.' :: (if (ds.drop n).isEmpty then ['0'] else ds.drop n)) := by
  have hd : ∀ c ∈ ds.drop n, c.isDigit := fun c hc => hd.right c <| List.mem_of_mem_drop hc
  cases he : ds.drop n with
  | nil      => exact ⟨.none, .point digits_zero⟩
  | cons c s =>
    have hd : Digits (c :: s) := ⟨nofun, he ▸ hd⟩
    exact ⟨.point hd, .point hd⟩

theorem magnitude_layout (hd : Digits ds) (hz : ds.head? ≠ some '0') :
    Magnitude (layout ds place) := by
  unfold layout
  split
  case isTrue =>
    split
    case isTrue =>
      have hm := Magnitude.intro (.inl rfl)
        (.point <| @digits_zeros_append ds (-place - 1).toNat hd) .none
      simpa using hm
    case isFalse =>
      extract_lets whole fraction
      have hw : Whole (ds.take whole ++ List.replicate (whole - ds.length) '0') :=
        whole_take hd hz isDigit_of_mem_zeros
      have hm := Magnitude.intro hw (@fraction_drop ds whole hd).right .none
      rwa [List.append_nil] at hm
  case isFalse =>
    extract_lets fraction
    have hs : ([if place < 0 then '-' else '+'] : List Char) ∈ [[], ['+'], ['-']] := by
      split <;> decide
    have he : Exponent ('e' :: ([if place < 0 then '-' else '+'] ++ Nat.toDigits 10 place.natAbs)) :=
      .mark (by decide) hs (digits_toDigits _)
    have hm := Magnitude.intro (@whole_take ds [] 0 hd hz nofun) (@fraction_drop ds 1 hd).left he
    rwa [List.append_nil, ← List.append_assoc] at hm

theorem magnitude_magnitudeText (h : Fits units) : Magnitude (magnitudeText units) := by
  rw [magnitudeText]
  by_cases hu : units = 0
  case pos =>
    rw [if_pos hu]
    exact Magnitude.intro (.inl rfl) (.point digits_zero) .none
  case neg =>
    have hp := pos_of_readsBack (@readsBack_shortestFrom units coarsestGrid h) hu
    rw [if_neg hu]
    generalize shortestFrom units coarsestGrid = shortest at hp ⊢
    cases shortest
    exact magnitude_layout (digits_toDigits _) (head?_toDigits hp)

theorem numeral_text {negative : Bool} {fits : Fits units} :
    Json.Numeral (finite negative units fits).text.toList := by
  rw [text, String.toList_ofList]
  refine .intro ?_ (magnitude_magnitudeText fits)
  cases negative <;> simp

end Binary32

end Palette
