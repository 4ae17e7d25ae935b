import Palette.Sheet.Parser
import Palette.Proofs.Grammar.Reader

-- Readers only go forward: the text that they leave, and the text at each of their faults, is the end
-- of the text that they were given.

namespace Palette

def Reply.Within (s : List Char) : Reply α → Prop
  | .accepted _ rest => rest <:+ s
  | .rejected f      => f.rest <:+ s
  | .aborted f       => f.rest <:+ s

theorem Reply.Within.trans {s t : List Char} {r : Reply α} (h : r.Within s) (hs : s <:+ t) :
    r.Within t := by
  cases r <;> exact List.IsSuffix.trans h hs

theorem Fault.merge_rest (f g : Fault) : (f.merge g).rest = f.rest ∨ (f.merge g).rest = g.rest := by
  unfold merge
  split
  · exact .inl rfl
  · split
    · exact .inr rfl
    · exact .inl rfl

namespace Reader

variable {α β : Type} {p q : Reader α} {s rest : List Char}

def Forward (p : Reader α) : Prop :=
  ∀ s, (p s).Within s

namespace Forward

theorem accepted {a : α} (h : Forward p) (hp : p s = .accepted a rest) : rest <:+ s := by
  have := h s
  rwa [hp] at this

theorem pure (a : α) : Forward (pure a) :=
  List.suffix_refl

theorem bind {next : α → Reader β} (h : Forward p) (hn : ∀ a, Forward (next a)) :
    Forward (p >>= next) := by
  intro s
  have hs := h s
  simp only [Bind.bind]
  cases hp : p s <;> rw [hp] at hs
  case accepted a rest => exact (hn a rest).trans hs
  all_goals exact hs

theorem map {f : α → β} (h : Forward p) : Forward (f <$> p) :=
  h.bind fun _ => pure _

theorem orElse (hp : Forward p) (hq : Forward q) : Forward (orElse p q) := by
  intro s
  have hp := hp s
  have hq := hq s
  simp only [Reader.orElse]
  cases h : p s <;> rw [h] at hp
  case rejected f =>
    cases h' : q s <;> rw [h'] at hq
    case rejected g => cases f.merge_rest g <;> simp_all [Reply.Within]
    all_goals exact hq
  all_goals exact hp

theorem commit (h : Forward p) : Forward (commit p) := by
  intro s
  have := h s
  simp only [Reader.commit]
  cases hp : p s <;> rwa [hp] at this

theorem optional (h : Forward p) : Forward (optional p) := by
  intro s
  have := h s
  simp only [Reader.optional]
  cases hp : p s <;> rw [hp] at this
  case rejected => exact List.suffix_refl s
  all_goals exact this

theorem peek (h : Forward p) : Forward (peek p) := by
  intro s
  have := h s
  simp only [Reader.peek]
  cases hp : p s <;> rw [hp] at this
  case accepted => exact List.suffix_refl s
  all_goals exact this

-- A reader that is told the text it starts on may fail there at any later time.
def Within (start : List Char) (p : Reader α) : Prop :=
  ∀ s, s <:+ start → (p s).Within start

theorem within (h : Forward p) (start : List Char) : Within start p :=
  fun s hs => (h s).trans hs

theorem Within.bind {start : List Char} {next : α → Reader β} (h : Within start p)
    (hn : ∀ a, Within start (next a)) : Within start (p >>= next) := by
  intro s hs
  have hs := h s hs
  simp only [Bind.bind]
  cases hp : p s <;> rw [hp] at hs
  case accepted a rest => exact hn a rest hs
  all_goals exact hs

theorem Within.abortAt {start : List Char} {e : Expectation} :
    Within start (abortAt start e : Reader α) :=
  fun _ _ => List.suffix_refl start

theorem fromStart {p : List Char → Reader α} (h : ∀ start, Within start (p start)) :
    Forward (fromStart p) :=
  fun s => h s s (List.suffix_refl s)

theorem refine {f : α → Except Expectation β} (h : Forward p) : Forward (Reader.refine p f) := by
  refine fromStart fun start => (h.within start).bind fun a => ?_
  intro s hs
  cases f a
  case ok    => exact hs
  case error => exact List.suffix_refl start

theorem many1 {test : Char → Bool} {expected : List Expectation} :
    Forward (many1 test expected) := by
  intro s
  unfold Reader.many1
  split
  · exact List.suffix_refl s
  · exact List.dropWhile_suffix test

theorem character {c : Char} : Forward (character c) := by
  intro s
  unfold Reader.character
  split
  · split
    · exact List.suffix_cons ..
    · exact List.suffix_refl _
  · exact List.suffix_refl []

theorem endOfInput : Forward endOfInput := by
  intro s
  unfold Reader.endOfInput
  split <;> exact List.suffix_refl _

theorem manyTill {stop : Reader β} (hp : Forward p) (hs : Forward stop) :
    Forward (manyTill p stop) := by
  intro s
  have item {a s rest} : p s = .accepted a rest → rest <:+ s := hp.accepted
  fun_induction Reader.manyTill p stop s
  case case1 s _ _ h  => exact hs.accepted h
  case case2 s _ h    => have := hs s; rwa [h] at this
  case case3 s _ _ _ h => have := hp s; rwa [h] at this
  case case4 s _ _ _ h => have := hp s; rwa [h] at this
  case case5 h _ _ _ hr ih => rw [hr] at ih; exact List.IsSuffix.trans ih (item h)
  case case6 h _ _ hr ih   => exact Reply.Within.trans (hr ▸ ih) (item h)
  case case7 h _ _ hr ih   => exact Reply.Within.trans (hr ▸ ih) (item h)
  case case8 h _           => exact item h

end Forward

-- The readers of a sheet.

theorem afterComment?_suffix (h : afterComment? s = some rest) : rest <:+ s := by
  unfold afterComment? at h
  split at h
  case h_2 => cases h
  case h_1 text =>
    suffices rest <:+ text by exact this.trans <| (List.suffix_cons ..).trans (List.suffix_cons ..)
    have hs := text.dropWhile_suffix (!isLineBreak ·)
    split at h <;> cases h
    case h_1 hd => exact hd ▸ hs
    case h_3    => exact hs

theorem skipTrivia_suffix (s : List Char) : skipTrivia s <:+ s := by
  fun_induction skipTrivia s
  case case1        => exact List.suffix_refl []
  case case2 ih     => exact ih.trans <| List.suffix_cons ..
  case case3 h ih   => exact ih.trans <| afterComment?_suffix h
  case case4        => exact List.suffix_refl _

theorem forward_trivia : Forward trivia :=
  skipTrivia_suffix

theorem forward_blanks : Forward blanks :=
  fun _ => List.dropWhile_suffix isBlank

theorem forward_lineBreak : Forward lineBreak := by
  intro s
  unfold lineBreak
  split
  · exact List.suffix_cons ..
  · exact (List.suffix_cons ..).trans (List.suffix_cons ..)
  · exact List.suffix_refl s

theorem forward_lineTail : Forward lineTail := by
  intro s
  have hs := s.dropWhile_suffix isBlank
  cases h : afterComment? (s.dropWhile isBlank) <;> simp only [lineTail, h, Option.getD]
  case none => exact hs
  case some => exact (afterComment?_suffix h).trans hs

theorem forward_itemEnd {closer : Reader Unit} (h : Forward closer) : Forward (itemEnd closer) :=
  forward_lineTail.bind fun _ =>
    .orElse (forward_lineBreak.bind fun _ => forward_trivia) h.peek

theorem forward_separator {c : Char} : Forward (separator c) :=
  forward_blanks.bind fun _ => .bind .character fun _ => forward_blanks

theorem forward_name : Forward name :=
  .bind .many1 fun _ => .pure _

theorem forward_digits : Forward digits :=
  .many1

theorem forward_hexPair : Forward hexPair := by
  intro s
  unfold hexPair
  split
  · split
    · exact (List.suffix_cons ..).trans (List.suffix_cons ..)
    · exact List.suffix_refl _
  · exact List.suffix_refl s

theorem forward_percentage : Forward percentage := by
  refine .fromStart fun start => (forward_digits.within start).bind fun ds =>
    (Forward.character.within start).bind fun _ => ?_
  split
  · exact (Forward.pure _).within start
  · exact .abortAt

theorem forward_opacity : Forward opacity :=
  .bind (.optional (.bind .many1 fun _ => forward_percentage)) fun _ => .pure _

theorem forward_hexColor : Forward hexColor :=
  .bind .character fun _ => .bind (.commit <|
    forward_hexPair.bind fun _ => forward_hexPair.bind fun _ => forward_hexPair.bind fun _ =>
      .pure _) fun _ => forward_opacity.bind fun _ => .pure _

theorem forward_channel : Forward channel :=
  forward_digits.refine

theorem splitSign_suffix (s : List Char) : (Numeral.splitSign s).2 <:+ s := by
  unfold Numeral.splitSign
  split
  · exact List.suffix_cons ..
  · exact List.suffix_cons ..
  · exact List.suffix_refl s

theorem splitFraction_suffix (s : List Char) : (Numeral.splitFraction s).2 <:+ s := by
  unfold Numeral.splitFraction
  split
  · exact (List.dropWhile_suffix _).trans <| List.suffix_cons ..
  · exact List.suffix_refl s

theorem splitExponent?_suffix {e : Int} (h : Numeral.splitExponent? s = some (e, rest)) :
    rest <:+ s := by
  unfold Numeral.splitExponent? at h
  split at h
  case h_2 => cases h; exact List.suffix_refl []
  case h_1 c s =>
    split at h
    case isFalse => cases h; exact List.suffix_refl _
    case isTrue =>
      simp only [Numeral.splitDigits, List.isEmpty_iff] at h
      split at h <;> cases h
      have hs := splitSign_suffix s
      exact (List.dropWhile_suffix _).trans <| hs.trans <| List.suffix_cons ..

theorem split?_suffix {n : Numeral} (h : Numeral.split? s = some (n, rest)) : rest <:+ s := by
  simp only [Numeral.split?, Option.or_eq_some_iff] at h
  rcases h with h | ⟨-, h⟩
  · simp only [Numeral.splitDecimal?, Numeral.splitDigits, Bool.and_eq_true, List.isEmpty_iff] at h
    split at h
    · cases h
    · split at h <;> cases h
      case h_2 he =>
        exact (splitExponent?_suffix he).trans <| (splitFraction_suffix _).trans <|
          (List.dropWhile_suffix _).trans <| splitSign_suffix s
  · unfold Numeral.splitSpecial? at h
    split at h
    case h_2 => cases h
    case h_1 a b c r => split at h <;> cases h <;> exact ⟨[a, b, c], rfl⟩

theorem forward_numeral : Forward numeral := by
  intro s
  unfold numeral
  split
  · exact List.suffix_refl s
  · exact split?_suffix ‹_›

theorem forward_alpha : Forward alpha := by
  refine .fromStart fun start => (forward_numeral.within start).bind fun n => ?_
  split
  · exact (Forward.pure _).within start
  · exact .abortAt

theorem forward_channelsOpening : Forward channelsOpening := by
  intro s
  unfold channelsOpening
  split
  · exact ⟨['r', 'g', 'b', 'a', '('], rfl⟩
  · exact List.suffix_refl s

theorem forward_channelColor : Forward channelColor :=
  forward_channelsOpening.bind fun _ => .commit <|
    forward_blanks.bind fun _ => forward_channel.bind fun _ => forward_separator.bind fun _ =>
    forward_channel.bind fun _ => forward_separator.bind fun _ =>
    forward_channel.bind fun _ => forward_separator.bind fun _ => forward_alpha.bind fun _ =>
    forward_blanks.bind fun _ => .bind .character fun _ => .pure _

theorem forward_reference : Forward reference :=
  .bind .character fun _ => .bind forward_name.commit fun _ =>
    forward_opacity.bind fun _ => .pure _

theorem forward_slot : Forward slot :=
  .orElse (.orElse forward_hexColor.map forward_channelColor.map) forward_reference.map

theorem forward_labelled (h : Forward p) : Forward (labelled p) :=
  forward_name.bind fun _ => forward_separator.bind fun _ => h.commit.bind fun _ => .pure _

theorem forward_labelledSlots : Forward labelledSlots :=
  (forward_labelled forward_slot).bind fun _ => forward_separator.bind fun _ =>
    (forward_labelled forward_slot).bind fun _ => forward_blanks.bind fun _ =>
    .bind .character fun _ => .pure _

theorem forward_pair : Forward pair :=
  .bind .character fun _ => .commit <| forward_blanks.bind fun _ => forward_labelledSlots.refine

theorem forward_value : Forward value :=
  .orElse forward_slot.map forward_pair

theorem forward_declaration : Forward declaration :=
  (forward_labelled forward_value).bind fun _ => .pure _

theorem forward_variableDeclaration : Forward variableDeclaration :=
  .bind .character fun _ => .commit <| forward_name.bind fun _ => forward_separator.bind fun _ =>
    forward_value.bind fun _ => .pure _

theorem forward_groupOpening : Forward groupOpening :=
  forward_name.bind fun _ => forward_blanks.bind fun _ => .bind .character fun _ => .pure _

theorem forward_items {item : Reader Item} (h : Forward item) :
    Forward (manyTill (do let i ← item; itemEnd (character '}'); return i) (character '}')) :=
  .manyTill (h.bind fun _ => (forward_itemEnd .character).bind fun _ => .pure _) .character

theorem forward_group (levels : Nat) : Forward (group levels) := by
  induction levels
  case zero =>
    exact .fromStart fun start => (forward_groupOpening.within start).bind fun _ => .abortAt
  case succ levels ih =>
    refine forward_groupOpening.bind fun _ => .bind (.commit ?_) fun _ => .pure _
    exact forward_trivia.bind fun _ => forward_items (ih.orElse forward_declaration.map)

theorem forward_item (levels : Nat) : Forward (orElse (group levels) (.declaration <$> declaration)) :=
  (forward_group levels).orElse forward_declaration.map

-- Every item begins with a name or a dollar sign, so that at least one character goes.

theorem name_consumes {n : String} (h : name s = .accepted n rest) : rest.length < s.length := by
  simp only [name, bind_eq_accepted, many1_eq_accepted, pure_eq_accepted] at h
  obtain ⟨cs, _, ⟨hn, ht, rfl⟩, -, rfl⟩ := h
  have hs := congrArg List.length (s.takeWhile_append_dropWhile (p := Char.isAlphanum))
  have := List.length_pos_iff.mpr hn
  rw [List.length_append, ht] at hs
  omega

theorem declaration_consumes {d : Declaration} (h : declaration s = .accepted d rest) :
    rest.length < s.length := by
  simp only [declaration, labelled, bind_eq_accepted, commit_eq_accepted, pure_eq_accepted] at h
  obtain ⟨_, _, ⟨_, s₁, hn, _, s₂, hs, _, s₃, hv, -, rfl⟩, -, rfl⟩ := h
  have hs := (forward_separator.accepted hs).length_le
  have hv := (forward_value.accepted hv).length_le
  have hn := name_consumes hn
  omega

theorem variableDeclaration_consumes {d : Declaration}
    (h : variableDeclaration s = .accepted d rest) : rest.length < s.length := by
  simp only [variableDeclaration, bind_eq_accepted, character_eq_accepted, commit_eq_accepted,
    pure_eq_accepted] at h
  obtain ⟨_, s₁, rfl, _, s₂, hn, _, s₃, hs, _, _, hv, -, rfl⟩ := h
  have hn := (forward_name.accepted hn).length_le
  have hs := (forward_separator.accepted hs).length_le
  have hv := (forward_value.accepted hv).length_le
  rw [List.length_cons]
  omega

theorem groupOpening_consumes {n : String} (h : groupOpening s = .accepted n rest) :
    rest.length < s.length := by
  simp only [groupOpening, bind_eq_accepted, pure_eq_accepted] at h
  obtain ⟨_, s₁, hn, _, s₂, hb, _, s₃, hc, -, rfl⟩ := h
  have hb := (forward_blanks.accepted hb).length_le
  have hc := (Forward.character.accepted hc).length_le
  have hn := name_consumes hn
  omega

theorem group_consumes {levels : Nat} {i : Item} (h : group levels s = .accepted i rest) :
    rest.length < s.length := by
  cases levels
  case zero => simp [group] at h
  case succ levels =>
    simp only [group, bind_eq_accepted, commit_eq_accepted, pure_eq_accepted] at h
    obtain ⟨_, s₁, ho, _, _, h, -, rfl⟩ := h
    obtain ⟨_, s₂, ht, hi⟩ := bind_eq_accepted.mp h
    have hf := forward_items (forward_item levels)
    have ht := (forward_trivia.accepted ht).length_le
    have hi := (hf.accepted hi).length_le
    have ho := groupOpening_consumes ho
    omega

theorem item_consumes {levels : Nat} {i : Item}
    (h : orElse (group levels) (.declaration <$> declaration) s = .accepted i rest) :
    rest.length < s.length := by
  simp only [orElse_eq_accepted, map_eq_accepted] at h
  rcases h with h | ⟨-, _, h, -⟩
  · exact group_consumes h
  · exact declaration_consumes h

theorem forward_topItem : Forward topItem :=
  .orElse (.orElse forward_variableDeclaration.map (forward_group maxNesting).map)
    forward_declaration.map

theorem topItem_consumes {i : TopItem} (h : topItem s = .accepted i rest) :
    rest.length < s.length := by
  simp only [topItem, orElse_eq_accepted, map_eq_accepted] at h
  rcases h with (⟨_, h, -⟩ | ⟨-, _, h, -⟩) | ⟨-, _, h, -⟩
  · exact variableDeclaration_consumes h
  · exact group_consumes h
  · exact declaration_consumes h

theorem forward_sheet : Forward sheet := by
  refine forward_trivia.bind fun _ => .bind (.manyTill ?item .endOfInput) fun _ => .pure _
  exact forward_topItem.bind fun _ => (forward_itemEnd .endOfInput).bind fun _ => .pure _

end Reader

end Palette
