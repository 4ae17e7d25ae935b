import Palette.Proofs.Grammar.Exactness

-- Where a channel should stand and there is no digit. Everything before such a place is read as the
-- grammar has it, and there the reading ends: the fault names nothing that was expected.

namespace Palette

namespace Grammar

open Reader

-- What stands before a channel of a color that is written by its channels.
inductive BeforeChannel : List Char → List Char → Prop
  | red   : Blanks s rest → BeforeChannel ('r' :: 'g' :: 'b' :: 'a' :: '(' :: s) rest
  | green : Blanks s s₁ → Channel s₁ red s₂ → Separator ',' s₂ rest →
    BeforeChannel ('r' :: 'g' :: 'b' :: 'a' :: '(' :: s) rest
  | blue  : Blanks s s₁ → Channel s₁ red s₂ → Separator ',' s₂ s₃ → Channel s₃ green s₄ →
    Separator ',' s₄ rest → BeforeChannel ('r' :: 'g' :: 'b' :: 'a' :: '(' :: s) rest

-- All blanks are before the place, and no digit comes next.
structure LacksChannel (s rest : List Char) : Prop where
  before  : BeforeChannel s rest
  noBlank : Stops isBlank rest
  noDigit : Stops Char.isDigit rest

-- What stands before a slot of a value. The value can be the slot.
inductive BeforeSlot : List Char → List Char → Prop
  | plain  : BeforeSlot s s
  | first  : Blanks s s₁ → Name s₁ n s₂ → Separator ':' s₂ rest → BeforeSlot ('(' :: s) rest
  | second : Blanks s s₁ → Labelled label s₁ c s₂ → Separator ',' s₂ s₃ → Name s₃ n s₄ →
    Separator ':' s₄ rest → BeforeSlot ('(' :: s) rest

mutual

-- What stands before the value of a declaration, which may be in groups. There is room for so many
-- levels of them.
inductive BeforeValue : Nat → List Char → List Char → Prop
  | declaration : Name s n s₁ → Separator ':' s₁ rest → BeforeValue levels s rest
  | group : Name s n s₁ → Blanks s₁ ('{' :: s₂) → Trivia s₂ s₃ → BeforeValues levels s₃ rest →
    BeforeValue (levels + 1) s rest

-- The same for the items of a group, of which some may stand before the one that has the value.
inductive BeforeValues : Nat → List Char → List Char → Prop
  | head : BeforeValue levels s rest → BeforeValues levels s rest
  | tail : Item s i s₁ → i.depth ≤ levels → ItemEnd ClosingBrace s₁ s₂ →
    BeforeValues levels s₂ rest → BeforeValues levels s rest

end

inductive BeforeTopValue : List Char → List Char → Prop
  | variable : Name s n s₁ → Separator ':' s₁ rest → BeforeTopValue ('$' :: s) rest
  | item     : BeforeValue maxNesting s rest → BeforeTopValue s rest

inductive BeforeTopValues : List Char → List Char → Prop
  | head : BeforeTopValue s rest → BeforeTopValues s rest
  | tail : TopItem s i s₁ → (∀ j, i = .item j → j.depth ≤ maxNesting) →
    ItemEnd (· = []) s₁ s₂ → BeforeTopValues s₂ rest → BeforeTopValues s rest

-- In a value that goes on as the grammar has it up to this place, a channel is missing there.
inductive ValueMissesChannel (s rest : List Char) : Prop
  | intro : BeforeSlot s u → LacksChannel u rest → ValueMissesChannel s rest

-- The same for a sheet.
inductive MissesChannel (source rest : List Char) : Prop
  | intro : Trivia source start → BeforeTopValues start v → ValueMissesChannel v rest →
    MissesChannel source rest

variable {s rest u v : List Char} {levels : Nat} {f : Fault}

-- The reading of what stands before.

theorem channel_of_stops (h : Stops Char.isDigit s) : channel s = .rejected ⟨s, []⟩ := by
  have hd : digits s = .rejected ⟨s, []⟩ := by simp [digits, many1, h.takeWhile_eq_nil]
  exact bind_of_rejected hd

theorem BeforeChannel.head (h : BeforeChannel s rest) : s.head? = some 'r' := by
  cases h <;> rfl

theorem BeforeChannel.starts (h : BeforeChannel s rest) : Stops isBlank s := by
  cases h <;> simp [isBlank]

theorem LacksChannel.channelColor_eq (h : LacksChannel s rest) :
    channelColor s = .aborted ⟨rest, []⟩ := by
  obtain ⟨h, hb, hd⟩ := h
  have hc := channel_of_stops hd
  cases h with
  | red hs =>
    have hs := blanks_complete hs hb
    simp [channelColor, bind, channelsOpening, commit, blanks, hs, hc]
  | green hs hr h₁ =>
    have hs := blanks_complete hs (channel_starts hr).isBlank
    have hr := channel_complete hr (separator_stops_digits h₁ rfl)
    have h₁ := separator_complete rfl h₁ hb
    simp [channelColor, bind, channelsOpening, commit, blanks, hs, hr, h₁, hc]
  | blue hs hr h₁ hg h₂ =>
    have hs := blanks_complete hs (channel_starts hr).isBlank
    have hr := channel_complete hr (separator_stops_digits h₁ rfl)
    have h₁ := separator_complete rfl h₁ (channel_starts hg).isBlank
    have hg := channel_complete hg (separator_stops_digits h₂ rfl)
    have h₂ := separator_complete rfl h₂ hb
    simp [channelColor, bind, channelsOpening, commit, blanks, hs, hr, h₁, hg, h₂, hc]

theorem LacksChannel.slot_eq (h : LacksChannel s rest) : slot s = .aborted ⟨rest, []⟩ := by
  have hh : Rejects hexColor s := hexColor_rejects <| by simp [h.before.head]
  simp only [slot, orElse_eq_aborted, map_eq_aborted, map_rejects]
  exact .inl <| .inr ⟨hh, h.channelColor_eq⟩

theorem labelled_of_aborted {p : Reader α} {n : String} {s₁ s₂ : List Char} (hn : Name s n s₁)
    (hs : Separator ':' s₁ s₂) (hb : Stops isBlank s₂) (hp : p s₂ = .aborted f) :
    labelled p s = .aborted f := by
  have hn := name_complete hn (separator_stops_alphanum hs rfl)
  have hs := separator_complete rfl hs hb
  exact (bind_of_accepted hn).trans <| (bind_of_accepted hs).trans <| bind_of_aborted <|
    commit_eq_aborted.mpr <| .inl hp

theorem pair_of_aborted {s₁ : List Char} (hs : Blanks s s₁) (hb : Stops isBlank s₁)
    (hl : labelledSlots s₁ = .aborted f) : pair ('(' :: s) = .aborted f := by
  have hs : blanks s = .accepted () s₁ := blanks_eq_accepted.mpr <| blanks_complete hs hb
  exact (bind_of_accepted character_cons).trans <| commit_eq_aborted.mpr <| .inl <|
    (bind_of_accepted hs).trans <| bind_of_aborted hl

theorem BeforeSlot.value_eq (h : BeforeSlot s u) (hb : Stops isBlank u)
    (hu : slot u = .aborted f) : value s = .aborted f := by
  simp only [value, orElse_eq_aborted, map_eq_aborted, map_rejects]
  cases h with
  | plain => exact .inl hu
  | first hs hn hc =>
    refine .inr ⟨slot_rejects rfl, ?_⟩
    exact pair_of_aborted hs (name_starts hn).isBlank <| bind_of_aborted <|
      labelled_of_aborted hn hc hb hu
  | second hs hl hc hn hc' =>
    have hl' := labelledSlot_complete hl (separator_ends hc)
    have hc := separator_complete rfl hc (name_starts hn).isBlank
    refine .inr ⟨slot_rejects rfl, ?_⟩
    exact pair_of_aborted hs (labelled_starts hl) <| (bind_of_accepted hl').trans <|
      (bind_of_accepted hc).trans <| bind_of_aborted <| labelled_of_aborted hn hc' hb hu

theorem BeforeSlot.starts (h : BeforeSlot s u) (hb : Stops isBlank u) : Stops isBlank s := by
  cases h
  case plain => exact hb
  all_goals simp [isBlank]

theorem BeforeValue.name (h : BeforeValue levels s v) : ∃ n s₁, Name s n s₁ := by
  cases h <;> exact ⟨_, _, ‹_›⟩

theorem BeforeValues.name (h : BeforeValues levels s v) : ∃ n s₁, Name s n s₁ := by
  rcases h with h | ⟨⟨hn, _, _⟩ | ⟨hn, _, _, _⟩, _, _, _⟩
  case head => exact h.name
  all_goals exact ⟨_, _, hn⟩

-- By induction on what stands before the value.

mutual

theorem BeforeValue.item_eq {s v : List Char} {levels : Nat} (h : BeforeValue levels s v)
    (hb : Stops isBlank v) (hv : value v = .aborted f) :
    orElse (group levels) (.declaration <$> declaration) s = .aborted f := by
  simp only [orElse_eq_aborted, map_eq_aborted]
  match h with
  | .declaration hn hs =>
    exact .inr ⟨group_rejects hn hs, bind_of_aborted <| labelled_of_aborted hn hs hb hv⟩
  | .group hn hs ht hi =>
    obtain ⟨_, _, hn'⟩ := hi.name
    have ht := trivia_complete ht (name_starts hn')
    refine .inl <| (bind_of_accepted <| groupOpening_complete hn hs).trans <| bind_of_aborted ?_
    exact commit_eq_aborted.mpr <| .inl <| (bind_of_accepted ht).trans <| hi.items_eq hb hv

theorem BeforeValues.items_eq {s v : List Char} {levels : Nat} (h : BeforeValues levels s v)
    (hb : Stops isBlank v) (hv : value v = .aborted f) :
    manyTill (do
      let i ← orElse (group levels) (.declaration <$> declaration)
      itemEnd (character '}')
      return i) (character '}') s = .aborted f := by
  match h with
  | .head hi =>
    obtain ⟨_, _, hn⟩ := hi.name
    exact manyTill_of_aborted (character_rejects.mpr <| name_head hn rfl) <| bind_of_aborted <|
      hi.item_eq hb hv
  | .tail hi hd he hr =>
    obtain ⟨_, _, hn⟩ := hr.name
    have hi' := hi.complete hd (.of_itemEnd (closingBrace · |>.left) he)
    have he := itemEnd_complete closingBrace he (name_starts hn)
    have hl := (forward_itemEnd .character).accepted he |>.length_le
    rw [manyTill_step (character_rejects.mpr <| item_head hi rfl) (ended_complete hi' he)
      (hl.trans_lt <| item_consumes hi'), hr.items_eq hb hv]
    rfl

end

theorem BeforeTopValue.starts (h : BeforeTopValue s v) : Stops startsTrivia s := by
  cases h with
  | «variable» _ _ => simp [startsTrivia]
  | item h         =>
    obtain ⟨_, _, hn⟩ := h.name
    exact name_starts hn

theorem BeforeTopValues.starts (h : BeforeTopValues s v) : Stops startsTrivia s := by
  cases h with
  | head h       => exact h.starts
  | tail hi _ _ _ => exact topItem_starts hi

theorem BeforeTopValue.topItem_eq (h : BeforeTopValue s v) (hb : Stops isBlank v)
    (hv : value v = .aborted f) : topItem s = .aborted f := by
  simp only [topItem, orElse_eq_aborted, map_eq_aborted, orElse_rejects, map_rejects]
  cases h with
  | «variable» hn hs =>
    have hn := name_complete hn (separator_stops_alphanum hs rfl)
    have hs := separator_complete rfl hs hb
    refine .inl <| .inl <| (bind_of_accepted character_cons).trans <| commit_eq_aborted.mpr <| .inl ?_
    exact (bind_of_accepted hn).trans <| (bind_of_accepted hs).trans <| bind_of_aborted hv
  | item h =>
    obtain ⟨_, _, hn⟩ := h.name
    have hd : Rejects variableDeclaration s := by simp [variableDeclaration, name_head hn]
    have hi := h.item_eq hb hv
    rw [orElse_eq_aborted, map_eq_aborted] at hi
    rcases hi with hg | ⟨hg, hi⟩
    · exact .inl <| .inr ⟨hd, hg⟩
    · exact .inr ⟨⟨hd, hg⟩, hi⟩

theorem BeforeTopValue.ne_nil (h : BeforeTopValue s v) : s ≠ [] := by
  cases h with
  | «variable» _ _ => simp
  | item h         =>
    obtain ⟨_, _, ⟨hn, _⟩⟩ := h.name
    simp [hn]

theorem BeforeTopValues.items_eq (h : BeforeTopValues s v) (hb : Stops isBlank v)
    (hv : value v = .aborted f) :
    manyTill (do let i ← topItem; itemEnd endOfInput; return i) endOfInput s = .aborted f := by
  induction h with
  | head h =>
    exact manyTill_of_aborted (endOfInput_rejects.mpr h.ne_nil) <| bind_of_aborted <|
      h.topItem_eq hb hv
  | tail hi hd he hr ih =>
    have hi' := hi.complete hd (.of_itemEnd (endOfText · |>.left) he)
    have he := itemEnd_complete endOfText he hr.starts
    have hl := (forward_itemEnd .endOfInput).accepted he |>.length_le
    rw [manyTill_step (endOfInput_rejects.mpr <| topItem_ne_nil hi) (ended_complete hi' he)
      (hl.trans_lt <| topItem_consumes hi'), ih hb hv]
    rfl

-- The fault is where the channel is missing, and nothing is expected there.
theorem MissesChannel.sheet_eq (h : MissesChannel s rest) : sheet s = .aborted ⟨rest, []⟩ := by
  obtain ⟨ht, hv, ⟨hs, hc⟩⟩ := h
  have hb := hc.before.starts
  have ht := trivia_complete ht hv.starts
  have hi := hv.items_eq (hs.starts hb) (hs.value_eq hb hc.slot_eq)
  exact (bind_of_accepted ht).trans <| bind_of_aborted hi

end Grammar

end Palette
