import Mathlib.Data.List.TakeWhile
import Palette.Sheet.Parser
import Palette.Proofs.Grammar.Reader
import Palette.Proofs.Grammar.Rules

-- Whatever a reader accepts, the grammar derives.

namespace Palette.Reader

open Grammar

variable {s rest : List Char} {u : Unit}

@[simp]
theorem blanks_eq_accepted : blanks s = .accepted u rest ↔ s.dropWhile isBlank = rest := by
  simp [blanks]

@[simp]
theorem trivia_eq_accepted : trivia s = .accepted u rest ↔ skipTrivia s = rest := by
  simp [trivia]

theorem takeWhile_all {test : Char → Bool} : ∀ c ∈ s.takeWhile test, test c :=
  fun _ => List.mem_takeWhile_imp

theorem dropWhile_head {test : Char → Bool} {c : Char} (h : s.dropWhile test = c :: rest) :
    test c = false := by
  simpa [h] using List.head?_dropWhile_not test s

theorem dropWhile_of_takeWhile_eq_nil {test : Char → Bool} (h : s.takeWhile test = []) :
    s.dropWhile test = s := by
  have hs := s.takeWhile_append_dropWhile (p := test)
  rwa [h, List.nil_append] at hs

theorem isBlank_iff {c : Char} : isBlank c ↔ c ∈ [' ', '\t'] := by
  simp [isBlank]

theorem blanks_cons {c : Char} (h : isBlank c) (hb : Blanks s rest) : Blanks (c :: s) rest := by
  simp only [isBlank, Bool.or_eq_true, beq_iff_eq] at h
  cases h <;> subst c
  case inl => exact .space hb
  case inr => exact .tab hb

theorem blanks_dropWhile (s : List Char) : Blanks s (s.dropWhile isBlank) := by
  induction s
  case nil => exact .nil
  case cons c s hi =>
    rw [List.dropWhile_cons]
    split
    case isTrue h => exact blanks_cons h hi
    case isFalse  => exact .nil

theorem comment_of_afterComment? (h : afterComment? s = some rest) : Comment s rest := by
  unfold afterComment? at h
  split at h
  case h_2 => cases h
  case h_1 text =>
    have hn : NoLineBreak (text.takeWhile (!isLineBreak ·)) := by
      intro c hc
      simpa [isLineBreak] using takeWhile_all c hc
    have hs := text.takeWhile_append_dropWhile (p := (!isLineBreak ·))
    cases hd : text.dropWhile (!isLineBreak ·) <;> rw [hd] at hs h
    case nil =>
      cases h
      rw [List.append_nil] at hs
      exact .last (hs ▸ hn)
    case cons c behind =>
      have hc := dropWhile_head hd
      simp only [isLineBreak, Bool.not_eq_false', Bool.or_eq_true, beq_iff_eq] at hc
      rw [← hs]
      cases hc <;> subst c
      case inr => cases h; exact .line hn .lf
      case inl =>
        split at h <;> cases h
        case h_1 hb   => cases hb; exact .line hn .crlf
        case h_3 hb   => exact absurd rfl (hb _)

theorem trivia_skipTrivia (s : List Char) : Trivia s (skipTrivia s) := by
  fun_induction skipTrivia s
  case case1           => exact .nil
  case case2 c _ h hi  => exact .blank (by simpa [isBlank, isLineBreak, or_assoc] using h) hi
  case case3 h hi      => exact .comment (comment_of_afterComment? h) hi
  case case4           => exact .nil

theorem lineBreak_sound (h : lineBreak s = .accepted u rest) : LineBreak s rest := by
  unfold lineBreak at h
  split at h <;> cases h
  case h_1 => exact .lf
  case h_2 => exact .crlf

theorem lineTail_sound (h : lineTail s = .accepted u rest) :
    ∃ s₁, Blanks s s₁ ∧ (s₁ = rest ∨ Comment s₁ rest) := by
  refine ⟨_, blanks_dropWhile s, ?_⟩
  simp only [lineTail, Reply.accepted.injEq, true_and] at h
  cases hc : afterComment? (s.dropWhile isBlank) <;> simp only [hc, Option.getD] at h
  case none => exact .inl h
  case some => exact .inr <| comment_of_afterComment? (h ▸ hc)

theorem itemEnd_sound {closer : Reader Unit} {Closes : List Char → Prop}
    (hc : ∀ {s rest u}, closer s = .accepted u rest → Closes s)
    (h : itemEnd closer s = .accepted u rest) : ItemEnd Closes s rest := by
  simp only [itemEnd, bind_eq_accepted, orElse_eq_accepted, trivia_eq_accepted,
    peek_eq_accepted] at h
  obtain ⟨_, s₂, ht, h⟩ := h
  obtain ⟨s₁, hb, ht⟩ := lineTail_sound ht
  cases h
  case inl h =>
    obtain ⟨_, s₃, hl, hr⟩ := h
    exact .line hb ht (lineBreak_sound hl) (hr ▸ trivia_skipTrivia s₃)
  case inr h =>
    obtain ⟨_, hr, _, _, hc'⟩ := h
    subst hr
    exact .last hb ht (hc hc')

theorem separator_sound {c : Char} (h : separator c s = .accepted u rest) :
    Separator c s rest := by
  simp only [separator, bind_eq_accepted, blanks_eq_accepted, character_eq_accepted] at h
  obtain ⟨_, _, hb, _, s₁, hc, hr⟩ := h
  exact .intro (hc ▸ hb ▸ blanks_dropWhile s) (hr ▸ blanks_dropWhile s₁)

theorem name_sound {n : String} (h : name s = .accepted n rest) : Name s n rest := by
  simp only [name, bind_eq_accepted, many1_eq_accepted, pure_eq_accepted] at h
  obtain ⟨cs, _, ⟨hn, ht, hd⟩, hc, hr⟩ := h
  rw [← s.takeWhile_append_dropWhile (p := Char.isAlphanum), ht, hd, hr, ← hc]
  exact .intro hn (ht ▸ takeWhile_all)

theorem digits_split (h : s.takeWhile Char.isDigit ≠ []) :
    Digits s (s.takeWhile Char.isDigit) (s.dropWhile Char.isDigit) := by
  suffices Digits (s.takeWhile Char.isDigit ++ s.dropWhile Char.isDigit)
      (s.takeWhile Char.isDigit) (s.dropWhile Char.isDigit) by
    rwa [List.takeWhile_append_dropWhile] at this
  exact .intro h takeWhile_all

theorem digits_sound {ds : List Char} (h : digits s = .accepted ds rest) : Digits s ds rest := by
  simp only [digits, many1_eq_accepted] at h
  have ⟨hn, ht, hd⟩ := h
  exact ht ▸ hd ▸ digits_split (ht ▸ hn)

theorem decimalValue_eq (ds : List Char) : decimalValue ds = decimal ds := by
  simp only [decimalValue, decimal, Nat.ofDigits_eq_foldr, List.map_reverse, List.foldr_reverse,
    List.foldl_map]
  congr 1
  funext n d
  exact Nat.add_comm ..

-- Hex digits lie below 128, where all characters can be tried.
theorem hexDigit_hexValue {c : Char} (h : isHexDigit c) : HexDigit c (hexValue c) := by
  have all : ∀ n < 128, isHexDigit (Char.ofNat n) →
      hexValue (Char.ofNat n) < 16 ∧ (Char.ofNat n = Nat.digitChar (hexValue (Char.ofNat n)) ∨
        Char.ofNat n = (Nat.digitChar (hexValue (Char.ofNat n))).toUpper) := by
    decide +kernel
  have lt : c.toNat < 128 := by
    simp only [isHexDigit, Char.isDigit, Char.le_def, UInt32.le_iff_toNat_le, Bool.or_eq_true,
      Bool.and_eq_true, decide_eq_true_eq, ge_iff_le] at h
    have h9 : '9'.val.toNat = 57 := rfl
    have hF : 'F'.val.toNat = 70 := rfl
    have hf : 'f'.val.toNat = 102 := rfl
    show c.val.toNat < 128
    omega
  simpa [HexDigit] using all c.toNat lt (by simpa using h)

theorem hexPair_sound {x : UInt8} (h : hexPair s = .accepted x rest) : HexByte s x rest := by
  unfold hexPair at h
  split at h
  case h_2 => cases h
  case h_1 =>
    split at h <;> cases h
    case isTrue h =>
      rw [Bool.and_eq_true] at h
      exact .intro (hexDigit_hexValue h.left) (hexDigit_hexValue h.right)

theorem percentage_sound {x : Binary32} (h : percentage s = .accepted x rest) :
    ∃ ds, Digits s ds ('%' :: rest) ∧ decimal ds ≤ 100 ∧ x = .ofRatio false (decimal ds) 100 := by
  simp only [percentage, fromStart_apply, bind_eq_accepted, character_eq_accepted] at h
  obtain ⟨ds, s₁, hd, _, s₂, hp, h⟩ := h
  split at h
  case isFalse => cases h
  case isTrue hl =>
    simp only [pure_eq_accepted] at h
    rw [decimalValue_eq] at hl h
    exact ⟨ds, h.right ▸ hp ▸ digits_sound hd, hl, h.left.symm⟩

theorem opacity_sound {x : Binary32} (h : opacity s = .accepted x rest) : Opacity s x rest := by
  simp only [opacity, bind_eq_accepted, optional_eq_accepted, pure_eq_accepted] at h
  obtain ⟨_, _, h, hx, rfl⟩ := h
  rcases h with ⟨_, ⟨bs, s₁, hb, hp⟩, rfl⟩ | ⟨-, rfl, rfl⟩ <;>
    simp only [Option.getD_some, Option.getD_none] at hx <;> subst hx
  case inr => exact .full
  case inl =>
    obtain ⟨ds, hd, hl, rfl⟩ := percentage_sound hp
    obtain ⟨hn, ht, rfl⟩ := many1_eq_accepted.mp hb
    cases s
    case nil => exact absurd ht.symm hn
    case cons c s =>
      have hc : isBlank c := by
        by_contra hc
        exact hn (by simpa [hc] using ht.symm)
      rw [List.dropWhile_cons_of_pos hc] at hd
      exact .percent (isBlank_iff.mp hc) (blanks_dropWhile s) hd hl

theorem hexColor_sound {c : Color} (h : hexColor s = .accepted c rest) : HexColor s c rest := by
  simp only [hexColor, bind_eq_accepted, character_eq_accepted, commit_eq_accepted,
    pure_eq_accepted] at h
  obtain ⟨_, s, rfl, _, _, ⟨r, s₁, hr, g, s₂, hg, b, s₃, hb, rfl, rfl⟩, a, _, ha, rfl, rfl⟩ := h
  exact .intro (hexPair_sound hr) (hexPair_sound hg) (hexPair_sound hb) (opacity_sound ha)

theorem channel_sound {x : UInt8} (h : channel s = .accepted x rest) : Channel s x rest := by
  simp only [channel, refine_eq_accepted] at h
  obtain ⟨ds, hd, h⟩ := h
  rw [decimalValue_eq] at h
  split at h <;> cases h
  case isTrue hl => exact .intro (digits_sound hd) hl

theorem sign_split (s : List Char) :
    Sign s (Numeral.splitSign s).1 (Numeral.splitSign s).2 := by
  unfold Numeral.splitSign
  split
  case h_1 => exact .minus
  case h_2 => exact .plus
  case h_3 => exact .none

theorem mantissa_split {ds fs r : List Char} (hd : s.takeWhile Char.isDigit = ds)
    (hf : Numeral.splitFraction (s.dropWhile Char.isDigit) = (fs, r)) (hn : ds ≠ [] ∨ fs ≠ []) :
    Mantissa s (ds, fs) r := by
  unfold Numeral.splitFraction at hf
  split at hf
  case h_2 =>
    cases hf
    have hn := hn.resolve_right (absurd rfl)
    exact .whole <| hd ▸ digits_split (hd ▸ hn)
  case h_1 s₁ hs =>
    simp only [Numeral.splitDigits, Prod.mk.injEq] at hf
    obtain ⟨rfl, rfl⟩ := hf
    by_cases hf' : s₁.takeWhile Char.isDigit = []
    case pos =>
      have hd' := hn.resolve_right (absurd hf')
      rw [hf', dropWhile_of_takeWhile_eq_nil hf']
      exact .point <| hs ▸ hd ▸ digits_split (hd ▸ hd')
    case neg =>
      by_cases hd' : ds = []
      case neg => exact .both (hs ▸ hd ▸ digits_split (hd ▸ hd')) (digits_split hf')
      case pos =>
        rw [← dropWhile_of_takeWhile_eq_nil (hd.trans hd'), hs, hd']
        exact .fraction (digits_split hf')

theorem exponent_split {e : Int} (h : Numeral.splitExponent? s = some (e, rest)) :
    Exponent s e rest := by
  unfold Numeral.splitExponent? at h
  split at h
  case h_2 => cases h; exact .none
  case h_1 c s =>
    split at h
    case isFalse => cases h; exact .none
    case isTrue hc =>
      simp only [Numeral.splitDigits, List.isEmpty_iff] at h
      split at h <;> cases h
      case isFalse hd =>
        rw [decimalValue_eq]
        exact .mark (by simpa using hc) (sign_split s) (digits_split hd)

theorem decimal_split {n : Palette.Numeral} (h : Numeral.splitDecimal? s = some (n, rest)) :
    Grammar.Numeral s n rest := by
  simp only [Numeral.splitDecimal?, Numeral.splitDigits, Bool.and_eq_true, List.isEmpty_iff] at h
  split at h
  case isTrue => cases h
  case isFalse hn =>
    split at h <;> cases h
    case h_2 e s₃ he =>
      rw [decimalValue_eq]
      refine .decimal (sign_split s) (mantissa_split rfl rfl ?_) (exponent_split he)
      exact not_and_or.mp hn

-- No character beyond the first 128 has one of these as its lower case.
theorem mem_of_toLower_eq {c l : Char} (h : c.toLower = l) (hl : l ∈ ['a', 'f', 'i', 'n']) :
    c ∈ [l, l.toUpper] := by
  have all : ∀ n < 128, (Char.ofNat n).toLower ∈ ['a', 'f', 'i', 'n'] →
      Char.ofNat n ∈ [(Char.ofNat n).toLower, (Char.ofNat n).toLower.toUpper] := by
    decide +kernel
  subst h
  by_cases hc : c.toNat < 128
  case pos => simpa using all c.toNat hc (by simpa using hl)
  case neg =>
    suffices hu : c.toLower = c by rw [hu]; exact List.mem_cons_self
    unfold Char.toLower
    split
    case isFalse => rfl
    case isTrue hu =>
      have := UInt32.le_iff_toNat_le.mp hu.right
      exact absurd (Nat.lt_of_le_of_lt this (by decide)) hc

theorem special_split {n : Palette.Numeral} (h : Numeral.splitSpecial? s = some (n, rest)) :
    Grammar.Numeral s n rest := by
  unfold Numeral.splitSpecial? at h
  split at h
  case h_2 => cases h
  case h_1 a b c r =>
    split at h <;> cases h
    case h_1 ha hb hc =>
      exact .nan (mem_of_toLower_eq ha (by simp)) (mem_of_toLower_eq hb (by simp))
        (mem_of_toLower_eq hc (by simp))
    case h_2 ha hb hc =>
      exact .infinity (mem_of_toLower_eq ha (by simp)) (mem_of_toLower_eq hb (by simp))
        (mem_of_toLower_eq hc (by simp))

theorem numeral_sound {n : Palette.Numeral} (h : numeral s = .accepted n rest) :
    Grammar.Numeral s n rest := by
  unfold numeral at h
  split at h <;> cases h
  case h_2 hn =>
    simp only [Numeral.split?, Option.or_eq_some_iff] at hn
    cases hn
    case inl hd => exact decimal_split hd
    case inr hs => exact special_split hs.right

theorem alpha_sound {x : Binary32} (h : alpha s = .accepted x rest) : Alpha s x rest := by
  simp only [alpha, fromStart_apply, bind_eq_accepted] at h
  obtain ⟨n, s₁, hn, h⟩ := h
  split at h
  case isFalse => cases h
  case isTrue hu =>
    obtain ⟨rfl, rfl⟩ := pure_eq_accepted.mp h
    exact .intro (numeral_sound hn) hu

theorem channelsOpening_eq_accepted :
    channelsOpening s = .accepted u rest ↔ s = 'r' :: 'g' :: 'b' :: 'a' :: '(' :: rest := by
  unfold channelsOpening
  split <;> simp_all

theorem channelColor_sound {c : Color} (h : channelColor s = .accepted c rest) :
    ChannelColor s c rest := by
  simp only [channelColor, bind_eq_accepted, channelsOpening_eq_accepted, commit_eq_accepted,
    blanks_eq_accepted, character_eq_accepted, pure_eq_accepted] at h
  obtain ⟨_, s, rfl, _, _, hb, r, s₂, hr, _, s₃, h₁, g, s₄, hg, _, s₅, h₂, b, s₆, hb', _, s₇, h₃,
    a, s₈, ha, _, _, hb'', _, _, hc, rfl, rfl⟩ := h
  exact .intro (hb ▸ blanks_dropWhile s) (channel_sound hr) (separator_sound h₁)
    (channel_sound hg) (separator_sound h₂) (channel_sound hb') (separator_sound h₃)
    (alpha_sound ha) (hc ▸ hb'' ▸ blanks_dropWhile s₈)

theorem reference_sound {r : Palette.Reference} (h : reference s = .accepted r rest) :
    Grammar.Reference s r rest := by
  simp only [reference, bind_eq_accepted, character_eq_accepted, commit_eq_accepted,
    pure_eq_accepted] at h
  obtain ⟨_, s, rfl, n, s₁, hn, o, _, ho, rfl, rfl⟩ := h
  exact .intro (name_sound hn) (opacity_sound ho)

theorem slot_sound {c : Palette.Slot} (h : slot s = .accepted c rest) : Grammar.Slot s c rest := by
  simp only [slot, orElse_eq_accepted, map_eq_accepted] at h
  rcases h with (⟨_, h, rfl⟩ | ⟨-, _, h, rfl⟩) | ⟨-, _, h, rfl⟩
  · exact .hexColor (hexColor_sound h)
  · exact .channelColor (channelColor_sound h)
  · exact .reference (reference_sound h)

theorem labelled_eq_accepted {p : Reader α} {n : String} {a : α} :
    labelled p s = .accepted (n, a) rest ↔ ∃ s₁ u s₂, name s = .accepted n s₁ ∧
      separator ':' s₁ = .accepted u s₂ ∧ p s₂ = .accepted a rest := by
  simp only [labelled, bind_eq_accepted, commit_eq_accepted, pure_eq_accepted, Prod.mk.injEq]
  constructor
  case mp =>
    rintro ⟨_, s₁, hn, u, s₂, hs, _, _, ha, ⟨rfl, rfl⟩, rfl⟩
    exact ⟨s₁, u, s₂, hn, hs, ha⟩
  case mpr =>
    rintro ⟨s₁, u, s₂, hn, hs, ha⟩
    exact ⟨n, s₁, hn, u, s₂, hs, a, rest, ha, ⟨rfl, rfl⟩, rfl⟩

theorem labelledSlot_sound {label : String} {c : Palette.Slot}
    (h : labelled slot s = .accepted (label, c) rest) : Labelled label s c rest := by
  have ⟨_, _, _, hn, hs, hc⟩ := labelled_eq_accepted.mp h
  exact .intro (name_sound hn) (separator_sound hs) (slot_sound hc)

theorem pair_sound {v : Palette.Value} (h : pair s = .accepted v rest) : Pair s v rest := by
  simp only [pair, labelledSlots, bind_eq_accepted, character_eq_accepted, commit_eq_accepted,
    blanks_eq_accepted, refine_eq_accepted, pure_eq_accepted] at h
  obtain ⟨_, s, rfl, _, _, rfl, _, ⟨⟨n, a⟩, s₂, ha, _, s₃, hs, ⟨m, b⟩, s₄, hb, _, _, hb', _, _, hc,
    rfl, rfl⟩, hp⟩ := h
  replace hc := hc ▸ hb' ▸ blanks_dropWhile s₄
  simp only [pairOfLabels] at hp
  split at hp
  case isTrue hl =>
    obtain ⟨rfl, rfl⟩ := hl
    cases hp
    exact .lightDark (blanks_dropWhile s) (labelledSlot_sound ha) (separator_sound hs)
      (labelledSlot_sound hb) hc
  case isFalse =>
    split at hp <;> cases hp
    case isTrue hl =>
      obtain ⟨rfl, rfl⟩ := hl
      exact .darkLight (blanks_dropWhile s) (labelledSlot_sound ha) (separator_sound hs)
        (labelledSlot_sound hb) hc

theorem value_sound {v : Palette.Value} (h : value s = .accepted v rest) :
    Grammar.Value s v rest := by
  simp only [value, orElse_eq_accepted, map_eq_accepted] at h
  rcases h with ⟨_, h, rfl⟩ | ⟨-, h⟩
  · exact .plain (slot_sound h)
  · exact .pair (pair_sound h)

theorem declaration_sound {d : Palette.Declaration} (h : declaration s = .accepted d rest) :
    Grammar.Declaration s d rest := by
  simp only [declaration, bind_eq_accepted, pure_eq_accepted] at h
  obtain ⟨⟨n, v⟩, _, h, rfl, rfl⟩ := h
  obtain ⟨_, _, _, hn, hs, hv⟩ := labelled_eq_accepted.mp h
  exact .intro (name_sound hn) (separator_sound hs) (value_sound hv)

theorem variableDeclaration_sound {d : Palette.Declaration}
    (h : variableDeclaration s = .accepted d rest) :
    ∃ s₁, s = '$' :: s₁ ∧ Grammar.Declaration s₁ d rest := by
  simp only [variableDeclaration, bind_eq_accepted, character_eq_accepted, commit_eq_accepted,
    pure_eq_accepted] at h
  obtain ⟨_, s₁, rfl, n, _, hn, _, _, hs, v, _, hv, rfl, rfl⟩ := h
  exact ⟨s₁, rfl, .intro (name_sound hn) (separator_sound hs) (value_sound hv)⟩

theorem groupOpening_sound {n : String} (h : groupOpening s = .accepted n rest) :
    ∃ s₁, Name s n s₁ ∧ Blanks s₁ ('{' :: rest) := by
  simp only [groupOpening, bind_eq_accepted, blanks_eq_accepted, character_eq_accepted,
    pure_eq_accepted] at h
  obtain ⟨_, s₁, hn, _, _, hb, _, _, hc, rfl, rfl⟩ := h
  exact ⟨s₁, name_sound hn, hc ▸ hb ▸ blanks_dropWhile s₁⟩

-- What a group's items are read with: groups that may nest one level less deep, or declarations.
theorem items_sound {inner : Reader Palette.Item} {levels : Nat} {items : List Palette.Item}
    (hi : ∀ {s i rest}, inner s = .accepted i rest → Grammar.Item s i rest ∧ i.depth ≤ levels)
    (h : manyTill (do let i ← inner; itemEnd (character '}'); return i) (character '}') s =
      .accepted items rest) : Items s items rest ∧ Item.depths items ≤ levels := by
  refine manyTill_sound (P := fun s items rest => Items s items rest ∧ Item.depths items ≤ levels)
    ?nil ?cons h
  case nil =>
    intro s _ rest h
    exact ⟨character_eq_accepted.mp h ▸ .nil, Nat.zero_le _⟩
  case cons =>
    rintro s i s₁ items rest h ⟨hr, hd⟩
    simp only [bind_eq_accepted, pure_eq_accepted] at h
    obtain ⟨_, _, h, _, _, he, rfl, rfl⟩ := h
    obtain ⟨hg, hl⟩ := hi h
    replace he : ItemEnd ClosingBrace _ _ :=
      itemEnd_sound (fun h => by simp [ClosingBrace, character_eq_accepted.mp h]) he
    exact ⟨.cons hg he hr, by simp [Item.depths, hl, hd]⟩

theorem item_sound {levels : Nat} {i : Palette.Item}
    (hg : ∀ {s i rest}, group levels s = .accepted i rest → Grammar.Item s i rest ∧ i.depth ≤ levels)
    (h : orElse (group levels) (.declaration <$> declaration) s = .accepted i rest) :
    Grammar.Item s i rest ∧ i.depth ≤ levels := by
  simp only [orElse_eq_accepted, map_eq_accepted] at h
  rcases h with h | ⟨-, d, h, rfl⟩
  · exact hg h
  · exact ⟨.declaration (declaration_sound h), Nat.zero_le _⟩

theorem group_sound {levels : Nat} {i : Palette.Item} (h : group levels s = .accepted i rest) :
    Grammar.Item s i rest ∧ i.depth ≤ levels := by
  induction levels generalizing s i rest
  case zero =>
    simp [group] at h
  case succ levels ih =>
    simp only [group, bind_eq_accepted, commit_eq_accepted, pure_eq_accepted] at h
    obtain ⟨n, s₁, ho, items, _, h, rfl, rfl⟩ := h
    obtain ⟨_, s₂, ht, h⟩ := bind_eq_accepted.mp h
    obtain ⟨_, hn, hb⟩ := groupOpening_sound ho
    obtain ⟨hi, hd⟩ := items_sound (item_sound ih) h
    have ht := trivia_eq_accepted.mp ht ▸ trivia_skipTrivia s₁
    exact ⟨.group hn hb ht hi, by simpa [Item.depth] using hd⟩

theorem topItem_sound {i : Palette.TopItem} (h : topItem s = .accepted i rest) :
    Grammar.TopItem s i rest ∧ ∀ j, i = .item j → j.depth ≤ maxNesting := by
  simp only [topItem, orElse_eq_accepted, map_eq_accepted] at h
  rcases h with (⟨d, h, rfl⟩ | ⟨-, j, h, rfl⟩) | ⟨-, d, h, rfl⟩
  · obtain ⟨_, rfl, hd⟩ := variableDeclaration_sound h
    exact ⟨.variable hd, by simp⟩
  · obtain ⟨hi, hd⟩ := group_sound h
    exact ⟨.item hi, by simpa using hd⟩
  · exact ⟨.item (.declaration (declaration_sound h)), by simp [Item.depth]⟩

theorem topItems_sound {items : List Palette.TopItem}
    (h : manyTill (do let i ← topItem; itemEnd endOfInput; return i) endOfInput s =
      .accepted items rest) :
    TopItems s items ∧ Item.depths (Sheet.mk items).body ≤ maxNesting := by
  refine manyTill_sound
    (P := fun s items _ => TopItems s items ∧ Item.depths (Sheet.mk items).body ≤ maxNesting)
    ?nil ?cons h
  case nil =>
    intro s _ rest h
    exact ⟨endOfInput_eq_accepted.mp h |>.left ▸ .nil, Nat.zero_le _⟩
  case cons =>
    rintro s i s₁ items rest h ⟨hr, hd⟩
    simp only [bind_eq_accepted, pure_eq_accepted] at h
    obtain ⟨i, _, h, _, _, he, rfl, rfl⟩ := h
    obtain ⟨hg, hl⟩ := topItem_sound h
    replace he : ItemEnd (· = []) _ _ :=
      itemEnd_sound (fun h => (endOfInput_eq_accepted.mp h).left) he
    refine ⟨.cons hg he hr, ?_⟩
    cases i
    case «variable» => exact hd
    case item j     => simpa [Sheet.body, Item.depths, hl j rfl] using hd

theorem sheet_sound {d : Sheet} (h : sheet s = .accepted d rest) :
    ∃ start, Trivia s start ∧ TopItems start d.items ∧ Item.depths d.body ≤ maxNesting := by
  simp only [sheet, bind_eq_accepted, trivia_eq_accepted] at h
  obtain ⟨_, _, rfl, h⟩ := h
  obtain ⟨items, _, hi, hd⟩ := bind_eq_accepted.mp h
  obtain ⟨rfl, rfl⟩ := pure_eq_accepted.mp hd
  exact ⟨_, trivia_skipTrivia s, topItems_sound hi⟩

end Palette.Reader
