import Palette.Proofs.Grammar.Positions
import Palette.Proofs.Grammar.Furthest

-- Nothing goes wrong while a text is read. What a reader leaves is the end of the text that it was
-- given, also where it fails, and every round of a repetition reads something, so that the check
-- that it does has no effect; nor does any reader wait for more text, as there is no such reply. A fault
-- therefore has a place in the text, between two of its characters.

namespace Palette

namespace Reader

variable {α β : Type} {p : Reader α} {s : List Char}

-- The readers that a sheet is read with.
inductive OfSheet : {α : Type} → Reader α → Prop
  | character (c : Char) : OfSheet (character c)
  | endOfInput : OfSheet endOfInput
  | spaces : OfSheet spaces
  | comment : OfSheet comment
  | trivia : OfSheet trivia
  | blanks : OfSheet blanks
  | lineBreak : OfSheet lineBreak
  | lineTail : OfSheet lineTail
  | braceEnd : OfSheet (itemEnd (.character '}'))
  | inputEnd : OfSheet (itemEnd .endOfInput)
  | separator (c : Char) : OfSheet (separator c)
  | name : OfSheet name
  | digits : OfSheet digits
  | hexPair : OfSheet hexPair
  | percentage : OfSheet percentage
  | opacity : OfSheet opacity
  | hexColor : OfSheet hexColor
  | channel : OfSheet channel
  | numeral : OfSheet numeral
  | alpha : OfSheet alpha
  | channelsOpening : OfSheet channelsOpening
  | channelColor : OfSheet channelColor
  | reference : OfSheet reference
  | slot : OfSheet slot
  | labelledSlot : OfSheet (labelled slot)
  | labelledSlots : OfSheet labelledSlots
  | pair : OfSheet pair
  | value : OfSheet value
  | declaration : OfSheet declaration
  | variableDeclaration : OfSheet variableDeclaration
  | groupOpening : OfSheet groupOpening
  | group (levels : Nat) : OfSheet (group levels)
  | topItem : OfSheet topItem
  | sheet : OfSheet sheet

theorem forward_comment : Forward comment := by
  intro s
  unfold comment
  split
  case h_1 h => exact afterComment?_suffix h
  case h_2 =>
    simp only [Reply.Within]
    split
    · exact List.drop_suffix 2 s
    · exact List.suffix_refl s

theorem OfSheet.forward (h : OfSheet p) : Forward p := by
  cases h with
  | character c         => exact .character
  | endOfInput          => exact .endOfInput
  | spaces              => exact Forward.many1.bind fun _ => .pure _
  | comment             => exact forward_comment
  | trivia              => exact forward_trivia
  | blanks              => exact forward_blanks
  | lineBreak           => exact forward_lineBreak
  | lineTail            => exact forward_lineTail
  | braceEnd            => exact forward_itemEnd .character
  | inputEnd            => exact forward_itemEnd .endOfInput
  | separator c         => exact forward_separator
  | name                => exact forward_name
  | digits              => exact forward_digits
  | hexPair             => exact forward_hexPair
  | percentage          => exact forward_percentage
  | opacity             => exact forward_opacity
  | hexColor            => exact forward_hexColor
  | channel             => exact forward_channel
  | numeral             => exact forward_numeral
  | alpha               => exact forward_alpha
  | channelsOpening     => exact forward_channelsOpening
  | channelColor        => exact forward_channelColor
  | reference           => exact forward_reference
  | slot                => exact forward_slot
  | labelledSlot        => exact forward_labelled forward_slot
  | labelledSlots       => exact forward_labelledSlots
  | pair                => exact forward_pair
  | value               => exact forward_value
  | declaration         => exact forward_declaration
  | variableDeclaration => exact forward_variableDeclaration
  | groupOpening        => exact forward_groupOpening
  | group levels        => exact forward_group levels
  | topItem             => exact forward_topItem
  | sheet               => exact forward_sheet

-- The items of a group that has room for so many levels.
abbrev groupItem (levels : Nat) : Reader Item :=
  orElse (group levels) (.declaration <$> declaration)

-- Items are read one after another, and each of them is read on. What the repetition rejects is what
-- one of them rejects, and nothing is rejected for want of progress.
structure Progresses (item : Reader α) (closer : Reader Unit) : Prop where
  shorter  : ∀ s a rest, ended item closer s = .accepted a rest → rest.length < s.length
  rejected : ∀ s f, manyTill (ended item closer) closer s = .rejected f →
    ∃ t, t <:+ s ∧ ended item closer t = .rejected f

theorem manyTill_eq_rejected {item : Reader α} {stop : Reader β} {f : Fault} (forward : Forward item)
    (consumes : ∀ {s a rest}, item s = .accepted a rest → rest.length < s.length)
    (h : manyTill item stop s = .rejected f) : ∃ t, t <:+ s ∧ item t = .rejected f := by
  fun_induction manyTill item stop s
  case case3 s _ _ _ hi => cases h; exact ⟨s, List.suffix_refl s, hi⟩
  case case6 s hi _ _ hr ih =>
    cases h
    obtain ⟨t, ht, hf⟩ := ih hr
    exact ⟨t, ht.trans <| forward.accepted hi, hf⟩
  case case8 hi hl => exact absurd (consumes hi) hl
  all_goals cases h

theorem Progresses.of_consumes {item : Reader α} {closer : Reader Unit} (hi : Forward item)
    (hc : Forward closer)
    (consumes : ∀ {s a rest}, item s = .accepted a rest → rest.length < s.length) :
    Progresses item closer := by
  have forward : Forward (ended item closer) :=
    hi.bind fun _ => (forward_itemEnd hc).bind fun _ => .pure _
  have shorter {s a rest} (h : ended item closer s = .accepted a rest) :
      rest.length < s.length := by
    obtain ⟨_, _, ha, he⟩ := ended_eq_accepted.mp h
    exact ((forward_itemEnd hc).accepted he).length_le.trans_lt <| consumes ha
  exact ⟨fun _ _ _ => shorter, fun _ _ => manyTill_eq_rejected forward shorter⟩

theorem progresses_topItem : Progresses topItem endOfInput :=
  .of_consumes forward_topItem .endOfInput topItem_consumes

theorem progresses_groupItem (levels : Nat) : Progresses (groupItem levels) (character '}') :=
  .of_consumes (forward_item levels) .character item_consumes

end Reader

-- Where a fault is in the text. What is left at the fault is what stands behind as many bytes as the
-- text has more than it, and these are whole characters.
structure ParseError.Placed (e : ParseError) (source : String) (f : Fault) : Prop where
  size_le  : (String.ofList f.rest).utf8ByteSize ≤ source.utf8ByteSize
  offset   : e.location.offset = source.utf8ByteSize - (String.ofList f.rest).utf8ByteSize
  split    : ∃ front, source = front ++ String.ofList f.rest ∧ e.location.offset = front.utf8ByteSize
  valid    : String.Pos.Raw.IsValid source ⟨e.location.offset⟩
  le_size  : e.location.offset ≤ source.utf8ByteSize
  location : e.location = .inText source.toList e.location.offset
  found    : e.found = .ofText f.rest

theorem ParseError.placed_atRest {front : String} {f : Fault} :
    (atRest (front ++ String.ofList f.rest).toList f.rest f.expected).Placed
      (front ++ String.ofList f.rest) f := by
  have h : atRest (front ++ String.ofList f.rest).toList f.rest f.expected =
      ⟨.after front.toList, f.expected, .ofText f.rest⟩ := by
    rw [String.toList_append, String.toList_ofList, atRest_append]
  have ho : (Location.after front.toList).offset = front.utf8ByteSize := Location.offset_after front
  rw [h]
  refine ⟨?size_le, ?offset, ⟨front, rfl, ho⟩, ?valid, ?le_size, ?location, rfl⟩
  case size_le  => simp
  case offset   => simp [ho]
  case valid    => exact String.Pos.Raw.isValid_iff_exists_append.mpr ⟨front, _, rfl, congrArg _ ho⟩
  case le_size  => simp [ho]
  case location => rw [ho, Location.inText_append]

namespace Sheet

variable {source : String} {e : ParseError}

theorem placed_of_parse (h : parse source = .error e) :
    ∃ f, (Reader.sheet source.toList).fault? = some f ∧ e.Placed source f := by
  obtain ⟨f, hf, rfl⟩ := exists_fault_of_parse h
  refine ⟨f, hf, ?_⟩
  obtain ⟨front, hs⟩ : f.rest <:+ source.toList :=
    Reply.rest_of_fault hf ▸ (Reader.forward_sheet source.toList).suffix
  obtain rfl : source = String.ofList front ++ String.ofList f.rest :=
    String.toList_inj.mp <| by simp [hs]
  exact ParseError.placed_atRest

-- Every reader leaves an end of its text, where it accepts and where it fails. No repetition fails for
-- want of progress: each item reads at least one character, and white space and comments are read for
-- as long as there are any. An error is at a place between two characters of the text.
theorem parse_safe (source : String) :
    (∀ {α : Type} (p : Reader α), p.OfSheet → ∀ s, (p s).rest <:+ s) ∧
    Reader.Progresses Reader.topItem Reader.endOfInput ∧
    (∀ levels, Reader.Progresses (Reader.groupItem levels) (Reader.character '\x7d')) ∧
    (∀ s, Reader.many (Reader.orElse Reader.spaces Reader.comment) s =
      .accepted () (Reader.skipTrivia s)) ∧
    ∀ e, parse source = .error e →
      ∃ f, (Reader.sheet source.toList).fault? = some f ∧ e.Placed source f := by
  refine ⟨fun p h s => (h.forward s).suffix, Reader.progresses_topItem, Reader.progresses_groupItem,
    fun s => ?_, fun e => placed_of_parse⟩
  rw [← Reader.trivia_eq]
  rfl

-- The é is in a comment, and behind its line there is something that begins no item.
theorem parse_safe_question :
    Reader.comment.OfSheet ∧ (Reader.comment "//é\n?".toList).rest <:+ "//é\n?".toList ∧
      parse "//é\n?" = .error ⟨⟨5, 2, 1⟩, [.character '$', .name], .line ['?']⟩ ∧
      ∃ f, (Reader.sheet "//é\n?".toList).fault? = some f ∧
        ParseError.Placed ⟨⟨5, 2, 1⟩, [.character '$', .name], .line ['?']⟩ "//é\n?" f := by
  have ht : Reader.skipTrivia "//é\n?".toList = ['?'] := by
    have hc : Reader.afterComment? "//é\n?".toList = some ['\n', '?'] := rfl
    rw [Reader.skipTrivia_afterComment? hc, Reader.skipTrivia_cons rfl]
    exact Reader.skipTrivia_stops <| Reader.Stops.cons_iff.mpr rfl
  have he : parse "//é\n?" = .error ⟨⟨5, 2, 1⟩, [.character '$', .name], .line ['?']⟩ :=
    parse_of_topItem ht nofun rfl
  obtain ⟨forward, -, -, -, placed⟩ := parse_safe "//é\n?"
  exact ⟨.comment, forward _ .comment _, he, placed _ he⟩

end Sheet

end Palette
