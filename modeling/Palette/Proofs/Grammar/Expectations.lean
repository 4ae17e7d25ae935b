import Palette.Proofs.Grammar.MissingChannels
import Palette.Proofs.Grammar.Pooling
import Palette.Proofs.Grammar.Safety

-- What is said to have been expected where a sheet goes wrong. Whatever is looked for in vain is
-- named, but for the digits of a channel. A fault that names nothing is therefore one of a channel
-- that is missing, and one of a channel that is missing names nothing.

namespace Palette

namespace Reader

open Grammar Reply NamesUnless

variable {α : Type} {x : Expectation} {T : List Char → Prop} {s rest : List Char} {u : Unit}

-- The readers of a sheet.

theorem expects_character {c : Char} : Expects (.character c) (character c) := by
  intro s f h
  cases s <;> simp only [character] at h
  case nil  => cases h; rfl
  case cons => split at h <;> cases h; rfl

theorem expects_endOfInput : Expects .endOfInput endOfInput := by
  intro s f h
  cases s <;> cases h
  rfl

theorem expects_lineBreak : Expects .lineBreak lineBreak := by
  intro s f h
  unfold lineBreak at h
  split at h <;> cases h
  rfl

theorem expects_many1 {test : Char → Bool} : Expects x (many1 test [x]) := by
  intro s f h
  unfold many1 at h
  split at h <;> cases h
  rfl

theorem expects_hexPair : Expects .hexPair hexPair := by
  intro s f h
  unfold hexPair at h
  split at h
  · split at h <;> cases h
    rfl
  · cases h
    rfl

theorem expects_channelsOpening : Expects .channels channelsOpening := by
  intro s f h
  unfold channelsOpening at h
  split at h <;> cases h
  rfl

theorem expects_numeral : Expects .alpha numeral := by
  intro s f h
  unfold numeral at h
  split at h <;> cases h
  rfl

theorem names_character {c : Char} : (character c s).NamesUnless T :=
  of_expects expects_character

theorem pools_character {c : Char} : Pools (character c) :=
  .of_expects expects_character <| .inr ⟨c, rfl⟩

theorem pools_fixed {p : Reader α} (h : Expects x p) (hx : x ∈ Expectation.fixed) : Pools p :=
  .of_expects h <| .inl hx

theorem names_blanks : (blanks s).NamesUnless T :=
  nofun

theorem pools_blanks : Pools blanks :=
  .of_not_rejects fun _ => nofun

theorem names_trivia : (trivia s).NamesUnless T :=
  nofun

theorem pools_trivia : Pools trivia :=
  .of_not_rejects fun _ => nofun

theorem names_name : (name s).NamesUnless T :=
  .bind (of_expects expects_many1) fun _ _ _ => .pure

theorem pools_name : Pools name :=
  .bind (pools_fixed expects_many1 (by decide)) fun _ => .pure

theorem names_separator {c : Char} : (separator c s).NamesUnless T :=
  .bind names_blanks fun _ _ _ => .bind names_character fun _ _ _ => names_blanks

theorem separator_stops {c : Char} (h : separator c s = .accepted u rest) : Stops isBlank rest := by
  obtain ⟨_, _, -, h⟩ := bind_eq_accepted.mp h
  obtain ⟨_, _, -, h⟩ := bind_eq_accepted.mp h
  exact .of_dropWhile_eq <| blanks_eq_accepted.mp h

theorem pools_separator {c : Char} : Pools (separator c) :=
  pools_blanks.bind fun _ => pools_character.bind fun _ => pools_blanks

section ItemEnd

variable {closer : Reader Unit} (hc : Expects x closer) (hx : x.IsPlain)

include hc hx

theorem names_itemEnd : (itemEnd closer s).NamesUnless T := by
  refine .bind nofun fun _ _ _ => .orElse ?line (.peek <| of_expects hc) ?pools ?pools'
  case line   => exact .bind (of_expects expects_lineBreak) fun _ _ _ => names_trivia
  case pools  => exact .bind (pools_fixed expects_lineBreak (by decide)) fun _ => pools_trivia
  case pools' => exact .peek <| .of_expects hc hx

-- What is so of the item that is wrong is so of it behind other items.
theorem names_items {item : Reader α} {T U : List Char → List Char → Prop}
    (hi : ∀ s, (item s).NamesUnless (T s)) (progresses : Progresses item closer)
    (head : ∀ {s t}, T s t → U s t)
    (tail : ∀ {s a s₁ u s₂ t}, item s = .accepted a s₁ → itemEnd closer s₁ = .accepted u s₂ →
      U s₂ t → U s t) :
    (manyTill (ended item closer) closer s).NamesUnless (U s) := by
  refine .manyTill (fun s => ?item) (fun _ => of_expects hc) progresses.shorter ?step s
  case item =>
    exact .bind ((hi s).mono head) fun _ _ _ => .bind (names_itemEnd hc hx) fun _ _ _ => .pure
  case step =>
    intro s a s₂ t ha ht
    obtain ⟨s₁, _, hi, he⟩ := ended_eq_accepted.mp ha
    exact tail hi he ht

end ItemEnd

theorem percentage_eq_aborted {f : Fault} (h : percentage s = .aborted f) :
    f.expected = [.percentageRange] := by
  rcases bind_eq_aborted.mp h with h | ⟨_, _, _, h⟩
  · exact absurd h many1_ne_aborted
  · rcases bind_eq_aborted.mp h with h | ⟨_, _, _, h⟩
    · exact absurd h character_ne_aborted
    · split at h <;> cases h
      rfl

-- Where an opacity is looked for in vain there is none.
theorem names_opacity : (opacity s).NamesUnless T := by
  refine .bind ?_ fun _ _ _ => .pure
  rintro ⟨rest, expected⟩ h
  unfold optional at h
  split at h <;> cases h
  case h_3 h =>
    rcases bind_eq_aborted.mp h with h | ⟨_, _, _, h⟩
    · exact absurd h many1_ne_aborted
    · obtain rfl : expected = [_] := percentage_eq_aborted h
      exact .inl .single

theorem pools_opacity : Pools opacity :=
  .of_not_rejects fun _ => opacity_not_rejects

theorem names_hexColor : (hexColor s).NamesUnless T :=
  have pair {s : List Char} : (hexPair s).NamesUnless T := of_expects expects_hexPair
  have pairs {s : List Char} : (do
      let red ← hexPair
      let green ← hexPair
      let blue ← hexPair
      return (red, green, blue) : Reader (UInt8 × UInt8 × UInt8)) s |>.NamesUnless T :=
    .bind pair fun _ _ _ => .bind pair fun _ _ _ => .bind pair fun _ _ _ => .pure
  .bind names_character fun _ _ _ => .bind pairs.commit fun _ _ _ =>
    .bind names_opacity fun _ _ _ => .pure

theorem pools_hexColor : Pools hexColor :=
  pools_character.bind fun _ => Pools.commit.bind fun _ => pools_opacity.bind fun _ => .pure

theorem names_alpha : (alpha s).NamesUnless T := by
  refine .bind (of_expects expects_numeral) fun n _ _ => ?_
  split
  · exact .pure
  · exact .abortAt

-- Digits are looked for without being named.
theorem names_channel : (channel s).NamesUnless fun t => t = s ∧ Stops Char.isDigit t := by
  refine .refine fun f h => ?_
  unfold digits many1 at h
  split at h <;> cases h
  case isTrue h => exact .inr ⟨rfl, rfl, Stops.of_takeWhile_eq_nil <| List.isEmpty_iff.mp h⟩

theorem names_channelColor : (channelColor s).NamesUnless (LacksChannel s) := by
  refine .bind (of_expects expects_channelsOpening) fun _ s₀ ho => .commit ?_
  obtain rfl := channelsOpening_eq_accepted.mp ho
  have missing {u} (hb : BeforeChannel _ u) (hs : Stops isBlank u) :
      (channel u).NamesUnless (LacksChannel ('r' :: 'g' :: 'b' :: 'a' :: '(' :: s₀)) :=
    names_channel.mono fun ⟨ht, hd⟩ => ⟨ht ▸ hb, ht ▸ hs, hd⟩
  refine .bind names_blanks fun _ s₁ hs => ?_
  have hs := blanks_eq_accepted.mp hs
  have hb := Stops.of_dropWhile_eq hs
  have hs := hs ▸ blanks_dropWhile s₀
  refine .bind (missing (.red hs) hb) fun red s₂ hr =>
    .bind names_separator fun _ s₃ h₁ => ?_
  have hr := channel_sound hr
  have hb := separator_stops h₁
  have h₁ := separator_sound h₁
  refine .bind (missing (.green hs hr h₁) hb) fun green s₄ hg =>
    .bind names_separator fun _ s₅ h₂ => ?_
  have hg := channel_sound hg
  have hb := separator_stops h₂
  have h₂ := separator_sound h₂
  refine .bind (missing (.blue hs hr h₁ hg h₂) hb) fun blue s₆ _ => ?_
  exact .bind names_separator fun _ _ _ => .bind names_alpha fun _ _ _ =>
    .bind names_blanks fun _ _ _ => .bind names_character fun _ _ _ => .pure

theorem pools_channelColor : Pools channelColor :=
  .bind (pools_fixed expects_channelsOpening (by decide)) fun _ => .commit

theorem names_reference : (reference s).NamesUnless T :=
  .bind names_character fun _ _ _ => .bind names_name.commit fun _ _ _ =>
    .bind names_opacity fun _ _ _ => .pure

theorem pools_reference : Pools reference :=
  pools_character.bind fun _ => Pools.commit.bind fun _ => pools_opacity.bind fun _ => .pure

theorem names_slot : (slot s).NamesUnless (LacksChannel s) := by
  refine .orElse (.orElse ?_ names_channelColor.map ?_ pools_channelColor.map) names_reference.map
    (.orElse ?_ pools_channelColor.map) pools_reference.map
  · exact names_hexColor.map
  · exact pools_hexColor.map
  · exact pools_hexColor.map

theorem pools_slot : Pools slot :=
  .orElse (.orElse pools_hexColor.map pools_channelColor.map) pools_reference.map

theorem names_labelled {p : Reader α} {V : List Char → List Char → Prop}
    (hp : ∀ {s}, (p s).NamesUnless (V s))
    (h : ∀ {n s₁ s₂ t}, Name s n s₁ → Separator ':' s₁ s₂ → V s₂ t → T t) :
    (labelled p s).NamesUnless T :=
  .bind names_name fun _ _ hn => .bind names_separator fun _ _ hs =>
    .bind (.commit <| hp.mono <| h (name_sound hn) (separator_sound hs)) fun _ _ _ => .pure

theorem pools_labelled {p : Reader α} : Pools (labelled p) :=
  pools_name.bind fun _ => pools_separator.bind fun _ => Pools.commit.bind fun _ => .pure

theorem names_pair : (pair s).NamesUnless (ValueMissesChannel s) := by
  refine .bind names_character fun _ s₁ hc => .commit <|
    .bind names_blanks fun _ s₂ hb => .refine ?_
  obtain rfl := character_eq_accepted.mp hc
  have hb := blanks_eq_accepted.mp hb ▸ blanks_dropWhile s₁
  refine .bind ?first fun _ _ hl =>
    .bind names_separator fun _ _ hs => .bind ?second fun _ _ _ => ?_
  case first  => exact names_labelled names_slot fun hn hc h => ⟨.first hb hn hc, h⟩
  case second =>
    have hl := labelledSlot_sound hl
    have hs := separator_sound hs
    exact names_labelled names_slot fun hn hc h => ⟨.second hb hl hs hn hc, h⟩
  exact .bind names_blanks fun _ _ _ => .bind names_character fun _ _ _ => .pure

theorem pools_pair : Pools pair :=
  pools_character.bind fun _ => .commit

theorem names_value : (value s).NamesUnless (ValueMissesChannel s) :=
  .orElse (.map <| names_slot.mono fun h => ⟨.plain, h⟩) names_pair pools_slot.map pools_pair

-- A channel is missing behind what stands before a value.
abbrev Behind (before : List Char → List Char → Prop) (s rest : List Char) : Prop :=
  ∃ v, before s v ∧ ValueMissesChannel v rest

theorem names_declaration {levels : Nat} :
    (declaration s).NamesUnless (Behind (BeforeValue levels) s) :=
  .bind (names_labelled names_value fun hn hs h => ⟨_, .declaration hn hs, h⟩) fun _ _ _ => .pure

theorem pools_declaration : Pools declaration :=
  pools_labelled.bind fun _ => .pure

theorem names_variableDeclaration :
    (variableDeclaration s).NamesUnless (Behind BeforeTopValue s) := by
  refine .bind names_character fun _ s₁ hc => .commit ?_
  obtain rfl := character_eq_accepted.mp hc
  refine .bind names_name fun _ _ hn => .bind names_separator fun _ _ hs => ?_
  refine .bind (names_value.mono fun h => ⟨_, ?_, h⟩) fun _ _ _ => .pure
  exact .variable (name_sound hn) (separator_sound hs)

theorem pools_variableDeclaration : Pools variableDeclaration :=
  pools_character.bind fun _ => .commit

theorem names_groupOpening : (groupOpening s).NamesUnless T :=
  .bind names_name fun _ _ _ => .bind names_blanks fun _ _ _ =>
    .bind names_character fun _ _ _ => .pure

theorem pools_groupOpening : Pools groupOpening :=
  pools_name.bind fun _ => pools_blanks.bind fun _ => pools_character.bind fun _ => .pure

theorem pools_group (levels : Nat) : Pools (group levels) :=
  fun s f h => pools_groupOpening s f <| group_eq_rejected h

theorem names_groupItems {levels : Nat}
    (hi : ∀ s, (groupItem levels s).NamesUnless (Behind (BeforeValue levels) s)) :
    (manyTill (ended (groupItem levels) (character '\x7d')) (character '\x7d') s).NamesUnless
      (Behind (BeforeValues levels) s) := by
  refine names_items expects_character (.inr ⟨_, rfl⟩) hi (progresses_groupItem levels) ?head ?tail
  case head =>
    rintro s t ⟨v, hv, h⟩
    exact ⟨v, .head hv, h⟩
  case tail =>
    rintro s i s₁ _ s₂ t hi he ⟨v, hv, h⟩
    obtain ⟨hi, hd⟩ := item_sound group_sound hi
    have he : ItemEnd ClosingBrace s₁ s₂ :=
      itemEnd_sound (fun h => by simp [ClosingBrace, character_eq_accepted.mp h]) he
    exact ⟨v, .tail hi hd he hv, h⟩

-- By induction on the levels. Every level reads its items with the level below.
theorem names_group (levels : Nat) (s : List Char) :
    (group levels s).NamesUnless (Behind (BeforeValue levels) s) := by
  induction levels generalizing s with
  | zero => exact .bind names_groupOpening fun _ _ _ => .abortAt
  | succ levels ih =>
    have item (s : List Char) : (groupItem levels s).NamesUnless (Behind (BeforeValue levels) s) :=
      .orElse (ih s) names_declaration.map (pools_group levels) pools_declaration.map
    refine .bind names_groupOpening fun _ s₁ ho => ?_
    refine .bind (.commit <| .bind names_trivia fun _ s₂ ht => ?_) fun _ _ _ => .pure
    refine (names_groupItems item).mono ?_
    rintro t ⟨v, hv, h⟩
    obtain ⟨_, hn, hb⟩ := groupOpening_sound ho
    have ht := trivia_eq_accepted.mp ht ▸ trivia_skipTrivia s₁
    exact ⟨v, .group hn hb ht hv, h⟩

theorem names_topItem : (topItem s).NamesUnless (Behind BeforeTopValue s) := by
  have item {t : List Char} : Behind (BeforeValue maxNesting) s t → Behind BeforeTopValue s t :=
    fun ⟨v, hv, h⟩ => ⟨v, .item hv, h⟩
  refine .orElse (.orElse names_variableDeclaration.map ?group ?_ (pools_group _).map) ?declaration
    (.orElse ?_ (pools_group _).map) pools_declaration.map
  case group       => exact ((names_group maxNesting s).mono item).map
  case declaration => exact (names_declaration.mono item).map
  all_goals exact pools_variableDeclaration.map

theorem names_topItems :
    (manyTill (ended topItem endOfInput) endOfInput s).NamesUnless (Behind BeforeTopValues s) := by
  refine names_items expects_endOfInput (.inl <| by decide) (fun _ => names_topItem)
    progresses_topItem ?head ?tail
  case head =>
    rintro s t ⟨v, hv, h⟩
    exact ⟨v, .head hv, h⟩
  case tail =>
    rintro s i s₁ _ s₂ t hi he ⟨v, hv, h⟩
    obtain ⟨hi, hd⟩ := topItem_sound hi
    have he : ItemEnd (· = []) s₁ s₂ :=
      itemEnd_sound (fun h => (endOfInput_eq_accepted.mp h).left) he
    exact ⟨v, .tail hi hd he hv, h⟩

theorem names_sheet : (sheet s).NamesUnless (MissesChannel s) := by
  refine .bind names_trivia fun _ s₁ ht => .bind (names_topItems.mono ?_) fun _ _ _ => .pure
  rintro t ⟨v, hv, h⟩
  have ht := trivia_eq_accepted.mp ht ▸ trivia_skipTrivia s
  exact .intro ht hv h

end Reader

namespace Sheet

variable {source : String} {e : ParseError}

theorem names_of_parse (h : parse source = .error e) :
    (e.expected ≠ [] ∧ (e.expected.map Expectation.text).Nodup) ∨
      ∃ rest, Grammar.MissesChannel source.toList rest ∧ e = .atRest source.toList rest [] := by
  obtain ⟨⟨rest, expected⟩, hf, rfl⟩ := exists_fault_of_parse h
  rcases Reader.names_sheet _ hf with ⟨hn, hd⟩ | ⟨rfl, hm⟩
  · exact .inl ⟨hn, hd⟩
  · exact .inr ⟨rest, hm, rfl⟩

theorem parse_of_missesChannel {rest : List Char} (h : Grammar.MissesChannel source.toList rest) :
    parse source = .error (.atRest source.toList rest []) := by
  rw [parse, parseChars, h.sheet_eq]

-- An error never names the same twice. It names nothing, so that valid input is said to have been
-- expected, exactly where a channel is missing.
theorem expected_of_parse (source : String) :
    (∀ e, parse source = .error e →
      (e.expected.map Expectation.text).Nodup ∧
      (Expectation.listText e.expected = "valid input" ↔ e.expected = [])) ∧
    ∀ e, parse source = .error e ∧ e.expected = [] ↔
      ∃ rest, Grammar.MissesChannel source.toList rest ∧ e = .atRest source.toList rest [] := by
  refine ⟨fun e h => ⟨?nodup, Expectation.listText_eq_validInput_iff⟩, fun e => ⟨?mp, ?mpr⟩⟩
  case nodup =>
    rcases names_of_parse h with ⟨-, hd⟩ | ⟨_, -, rfl⟩
    · exact hd
    · exact List.nodup_nil
  case mp  => exact fun ⟨h, he⟩ => (names_of_parse h).resolve_left fun hn => hn.left he
  case mpr =>
    rintro ⟨rest, hm, rfl⟩
    exact ⟨parse_of_missesChannel hm, rfl⟩

-- All that a value can begin with is named where one is missing. Where there is a sign instead of
-- the first channel nothing is.
theorem expected_of_parse_values :
    (∃ e, parse "a:" = .error e ∧
      e.expected = [.character '#', .channels, .character '$', .character '('] ∧
      (e.expected.map Expectation.text).Nodup ∧
      (Expectation.listText e.expected = "valid input" ↔ e.expected = [])) ∧
    Grammar.MissesChannel "a:rgba( -1)".toList "-1)".toList ∧
    parse "a:rgba( -1)" = .error (.atRest "a:rgba( -1)".toList "-1)".toList []) := by
  have ht : Reader.skipTrivia "a:".toList = "a:".toList :=
    Reader.skipTrivia_stops <| Reader.Stops.cons_iff.mpr rfl
  have he : parse "a:" = .error
      ⟨⟨2, 1, 3⟩, [.character '#', .channels, .character '$', .character '('], .endOfInput⟩ :=
    parse_of_topItem ht nofun rfl
  have hm : Grammar.MissesChannel "a:rgba( -1)".toList "-1)".toList :=
    .intro .nil (.head <| .item <| .declaration (.of_all 'a' [] rfl) <| .intro .nil .nil)
      ⟨.plain, .red <| .space .nil, by simp [Reader.isBlank], by simp [Char.isDigit]⟩
  exact ⟨⟨_, he, rfl, (expected_of_parse "a:").left _ he⟩, hm,
    ((expected_of_parse "a:rgba( -1)").right _).mpr ⟨_, hm, rfl⟩ |>.left⟩

-- A channel was expected, and the message does not say so.
theorem parse_channel_unnamed : ∃ e, parse "a: rgba(-1, 0, 0, 1)" = .error e ∧
    e.message = "1:9: expected valid input, found '-1, 0, 0, 1)'" := by
  have ht : Reader.skipTrivia "a: rgba(-1, 0, 0, 1)".toList = "a: rgba(-1, 0, 0, 1)".toList :=
    Reader.skipTrivia_stops <| Reader.Stops.cons_iff.mpr rfl
  have he : parse "a: rgba(-1, 0, 0, 1)" =
      .error ⟨⟨8, 1, 9⟩, [], .line "-1, 0, 0, 1)".toList⟩ :=
    parse_of_topItem ht nofun rfl
  exact ⟨_, he, by decide +kernel⟩

end Sheet

end Palette
