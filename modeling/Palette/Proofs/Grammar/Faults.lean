import Palette.Proofs.Grammar.Concatenation
import Palette.Proofs.Grammar.Furthest

-- Where a text is at fault. An opacity that comes to nothing leaves no trace, even if it got further than
-- all that was tried afterwards: the blanks and digits that were read for it are read again, and the
-- fault is found at the digits.

namespace Palette

namespace Grammar

-- A slot with no opacity behind it.
inductive BareSlot : Rule Palette.Slot
  | hexColor  : HexByte s red s₁ → HexByte s₁ green s₂ → HexByte s₂ blue rest →
    BareSlot ('#' :: s) (.color ⟨red, green, blue, .one⟩) rest
  | reference : Name s n rest → BareSlot ('$' :: s) (.reference ⟨n, .one⟩) rest

-- A declaration of such a slot.
inductive BareItem : Rule Palette.TopItem
  | variable    : Name s n s₁ → Separator ':' s₁ s₂ → BareSlot s₂ slot rest →
    BareItem ('$' :: s) (.variable ⟨n, .plain slot⟩) rest
  | declaration : Name s n s₁ → Separator ':' s₁ s₂ → BareSlot s₂ slot rest →
    BareItem s (.item (.declaration ⟨n, .plain slot⟩)) rest

-- The last item is such a declaration, and nothing comes behind it.
inductive EndsBare : List Char → List Palette.TopItem → Prop
  | last : BareItem s i [] → EndsBare s [i]
  | cons : TopItem s i s₁ → ItemEnd (· = []) s₁ s₂ → EndsBare s₂ items → EndsBare s (i :: items)

-- Nothing of the text can be taken for more of a slot that it stands behind.
structure Apart (t : List Char) : Prop where
  opacity : Reader.opacity t = .accepted .one t
  stops   : Reader.Stops Char.isAlphanum t

end Grammar

-- Blanks and digits, which begin an opacity, and behind them a text that does not go on with one.
structure BrokenOff (blanks ds tail : List Char) : Prop where
  blanks_ne_nil : blanks ≠ []
  blank         : ∀ c ∈ blanks, Reader.isBlank c
  digits_ne_nil : ds ≠ []
  digit         : ∀ d ∈ ds, d.isDigit
  tail          : ∀ c ∈ tail.head?, c.isDigit = false ∧ c ≠ '%'

namespace BrokenOff

open Reader

variable {blanks ds tail : List Char} (h : BrokenOff blanks ds tail)

include h

theorem starts : Stops startsTrivia (ds ++ tail) :=
  digits_starts <| .intro h.digits_ne_nil h.digit

theorem stops_alphanum : Stops Char.isAlphanum (blanks ++ (ds ++ tail)) := by
  have none : NonePass Char.isAlphanum [' ', '\t'] := rfl
  exact .of_append h.blanks_ne_nil h.blank fun c hc => none.of_mem <| isBlank_iff.mp hc

theorem percentage_eq : percentage (ds ++ tail) = .rejected ⟨tail, [.character '%']⟩ := by
  have hd : digits (ds ++ tail) = .accepted ds tail :=
    many1_complete h.digits_ne_nil h.digit fun c hc => (h.tail c hc).left
  have hp : character '%' tail = .rejected ⟨tail, [.character '%']⟩ := by
    cases tail with
    | nil      => rfl
    | cons c _ => simp [character, (h.tail c rfl).right]
  exact (bind_of_accepted hd).trans <| bind_of_rejected hp

theorem written_eq :
    (do let _ ← many1 isBlank []; percentage) (blanks ++ (ds ++ tail)) =
      .rejected ⟨tail, [.character '%']⟩ := by
  have hb : many1 isBlank [] (blanks ++ (ds ++ tail)) = .accepted blanks (ds ++ tail) :=
    many1_complete h.blanks_ne_nil h.blank h.starts.isBlank
  exact (bind_of_accepted hb).trans h.percentage_eq

theorem opacity_eq : opacity (blanks ++ (ds ++ tail)) = .accepted .one (blanks ++ (ds ++ tail)) :=
  bind_of_accepted <| optional_of_rejected h.written_eq

theorem gaveUp : Parts.opacity.GaveUp (blanks ++ (ds ++ tail)) ⟨tail, [.character '%']⟩ :=
  .first <| .optional h.written_eq

theorem apart : Grammar.Apart (blanks ++ (ds ++ tail)) :=
  ⟨h.opacity_eq, h.stops_alphanum⟩

theorem itemEnd_eq :
    itemEnd endOfInput (blanks ++ (ds ++ tail)) =
      .rejected ⟨ds ++ tail, [.lineBreak, .endOfInput]⟩ := by
  have continues (c : Char) (hc : continuesLine c) : startsTrivia c := by
    simp only [continuesLine, decide_eq_true_eq, List.mem_cons, List.not_mem_nil, or_false] at hc
    rcases hc with rfl | rfl | rfl <;> rfl
  have breaks (c : Char) (hc : isLineBreak c) : startsTrivia c := by
    simp only [isLineBreak, Bool.or_eq_true, beq_iff_eq] at hc
    rcases hc with rfl | rfl <;> rfl
  have ht : lineTail (blanks ++ (ds ++ tail)) = .accepted () (ds ++ tail) := by
    simp only [lineTail, h.starts.isBlank.dropWhile_append h.blank,
      afterComment?_stops (h.starts.imp continues), Option.getD_none]
  have hl := lineBreak_stops <| h.starts.imp breaks
  have he : peek endOfInput (ds ++ tail) = .rejected ⟨ds ++ tail, [.endOfInput]⟩ := by
    obtain ⟨d, rest, hd⟩ := List.exists_cons_of_ne_nil h.digits_ne_nil
    rw [hd]
    rfl
  refine (bind_of_accepted ht).trans <| (orElse_of_rejected (bind_of_rejected hl) he).trans ?_
  simp [Fault.merge]

end BrokenOff

namespace Grammar

open Reader

variable {s s₁ s₂ rest t start : List Char} {n : String} {c : Palette.Slot} {i : Palette.TopItem}
variable {items : List Palette.TopItem} {f : Fault}

namespace BareSlot

theorem append (h : BareSlot s c rest) : BareSlot (s ++ t) c (rest ++ t) := by
  cases h with
  | hexColor hr hg hb => exact .hexColor hr.append hg.append hb.append
  | reference hn      => exact .reference hn.append

theorem value (h : BareSlot s c rest) : Value s (.plain c) rest := by
  cases h with
  | hexColor hr hg hb => exact .plain <| .hexColor <| .intro hr hg hb .full
  | reference hn      => exact .plain <| .reference <| .intro hn .full

theorem value_complete (h : BareSlot s c t) (ht : Apart t) :
    Reader.value s = .accepted (.plain c) t := by
  simp only [Reader.value, slot, orElse_eq_accepted, map_eq_accepted, orElse_rejects, map_rejects]
  refine .inl ⟨c, ?_, rfl⟩
  cases h with
  | hexColor hr hg hb =>
    refine .inl <| .inl ⟨_, ?_, rfl⟩
    simp [Reader.hexColor, hexPair_complete hr, hexPair_complete hg, hexPair_complete hb, ht.opacity]
  | reference hn =>
    refine .inr ⟨⟨hexColor_rejects (by simp), channelColor_rejects (by simp)⟩, _, ?_, rfl⟩
    simp [Reader.reference, name_complete hn ht.stops, ht.opacity]

-- Behind the slot an opacity is looked for.
theorem gaveUp (h : BareSlot s c t) (ht : Apart t) (hf : Parts.opacity.GaveUp t f) :
    Parts.value.GaveUp s f := by
  refine .left <| .first ?_
  cases h with
  | @hexColor _ red _ green _ blue _ hr hg hb =>
    refine .left <| .left <| .first <| .behind character_cons <|
      .behind (a := (red, green, blue)) (commit_eq_accepted.mpr ?_) <| .first hf
    simp [hexPair_complete hr, hexPair_complete hg, hexPair_complete hb]
  | @reference s _ _ hn =>
    have hh := hexColor_rejects (s := '$' :: s) (by simp)
    have hc := channelColor_rejects (s := '$' :: s) (by simp)
    exact .right (by simp [hh, hc]) <| .first <| .behind character_cons <|
      .behind (commit_eq_accepted.mpr <| name_complete hn ht.stops) <| .first hf

end BareSlot

namespace BareItem

theorem append (h : BareItem s i rest) : BareItem (s ++ t) i (rest ++ t) := by
  cases h with
  | «variable» hn hs hc   => exact .variable hn.append hs.append hc.append
  | declaration hn hs hc => exact .declaration hn.append hs.append hc.append

theorem ne_nil (h : BareItem s i rest) : s ≠ [] := by
  cases h with
  | «variable» _ _ _   => simp
  | declaration hn _ _ => cases hn; simp [*]

theorem starts (h : BareItem s i rest) : Stops startsTrivia s := by
  cases h with
  | «variable» _ _ _   => simp [startsTrivia]
  | declaration hn _ _ => exact name_starts hn

theorem complete (h : BareItem s i t) (ht : Apart t) : topItem s = .accepted i t := by
  cases h with
  | «variable» hn hs hc =>
    have hn := name_complete hn (separator_stops_alphanum hs rfl)
    have hs := separator_complete rfl hs (value_starts hc.value)
    simp [topItem, variableDeclaration, hn, hs, hc.value_complete ht]
  | declaration hn hs hc =>
    have hg : Rejects (group maxNesting) s := group_rejects hn hs
    have hl := labelled_complete hn hs (value_starts hc.value) (hc.value_complete ht)
    simp [topItem, variableDeclaration, Reader.declaration, name_head hn, hg, hl]

theorem gaveUp (h : BareItem s i t) (ht : Apart t) (hf : Parts.opacity.GaveUp t f) :
    Parts.topItem.GaveUp s f := by
  cases h with
  | «variable» hn hs hc =>
    refine .left <| .left <| .first <| .behind character_cons ?_
    refine .behind (name_complete hn (separator_stops_alphanum hs rfl)) ?_
    exact .behind (separator_complete rfl hs (value_starts hc.value)) <| .first <| hc.gaveUp ht hf
  | declaration hn hs hc =>
    have hg : Rejects (group maxNesting) s := group_rejects hn hs
    refine .right ?_ <| .first <| .first ?_
    · simp [variableDeclaration, name_head hn, hg]
    · refine .behind (name_complete hn (separator_stops_alphanum hs rfl)) ?_
      exact .behind (separator_complete rfl hs (value_starts hc.value)) <| .first <| hc.gaveUp ht hf

end BareItem

namespace EndsBare

theorem ne_nil (h : EndsBare s items) : s ≠ [] := by
  cases h with
  | last hi     => exact hi.ne_nil
  | cons hi _ _ => exact topItem_ne_nil hi

theorem starts (h : EndsBare s items) : Stops startsTrivia (s ++ t) := by
  cases h with
  | last hi     => exact hi.append.starts
  | cons hi _ _ => exact topItem_starts hi.append

theorem skipTrivia_eq (h : EndsBare start items) (ht : Trivia s start) :
    skipTrivia (s ++ t) = start ++ t := by
  rw [skipTrivia_of_trivia <| ht.append h.ne_nil, skipTrivia_stops h.starts]

-- By induction on the items. What stands behind the last one is reached when it is read.
theorem rounds (h : EndsBare s items)
    (hd : Palette.Item.depths (Sheet.mk items).body ≤ maxNesting) :
    ∃ u i, BareItem (u ++ t) i t ∧ Relation.ReflTransGen
      (fun s t => Rejects endOfInput s ∧ Parts.Round (ended topItem endOfInput) s t)
      (s ++ t) (u ++ t) := by
  induction h with
  | last hi => exact ⟨_, _, hi.append, .refl⟩
  | cons hi he hr ih =>
    have ⟨hd, hr'⟩ := depths_body_cons.mp hd
    have ⟨u, i, hu, hs⟩ := ih hr'
    have he := he.append (t := t) hr.ne_nil (absurd · hr.ne_nil)
    have hi := hi.append (t := t)
    have hi' := hi.complete hd (.of_itemEnd (endOfText · |>.left) he)
    have he := itemEnd_complete endOfText he hr.starts
    have hl := (forward_itemEnd .endOfInput).accepted he |>.length_le
    refine ⟨u, i, hu, .head ⟨?_, _, ended_complete hi' he, hl.trans_lt <| topItem_consumes hi'⟩ hs⟩
    exact endOfInput_rejects.mpr <| topItem_ne_nil hi

theorem topItems_eq (h : EndsBare s items)
    (hd : Palette.Item.depths (Sheet.mk items).body ≤ maxNesting) (ht : Apart t)
    (he : itemEnd endOfInput t = .rejected f) : topItems (s ++ t) = .rejected f := by
  have ⟨u, i, hi, hs⟩ := h.rounds (t := t) hd
  exact Parts.manyTill_of_rounds hs <| manyTill_of_rejected (endOfInput_rejects.mpr hi.ne_nil) <|
    (bind_of_accepted <| hi.complete ht).trans <| bind_of_rejected he

theorem gaveUp (h : EndsBare start items) (ht : Trivia s start)
    (hd : Palette.Item.depths (Sheet.mk items).body ≤ maxNesting) (ha : Apart t)
    (hf : Parts.opacity.GaveUp t f) : Parts.sheet.GaveUp (s ++ t) f := by
  have ⟨u, i, hi, hs⟩ := h.rounds (t := t) hd
  have hu : (Parts.topItem.ended endOfInput).GaveUp (u ++ t) f := .first <| hi.gaveUp ha hf
  exact .behind (congrArg (Reply.accepted ()) <| h.skipTrivia_eq ht) <| .first <|
    .item hs (endOfInput_rejects.mpr hi.ne_nil) hu

end EndsBare

end Grammar

namespace Sheet

variable {source : String} {sheet : Sheet} {start blanks ds tail : List Char}

theorem parse_eq_error_of_sheet {front rest : List Char} {expected : List Expectation}
    (h : Reader.sheet (front ++ rest) = .rejected ⟨rest, expected⟩) :
    parseChars (front ++ rest) = .error ⟨.after front, expected, .ofText rest⟩ := by
  rw [parseChars, h]
  exact congrArg Except.error ParseError.atRest_append

section BrokenOff

variable (h : parse source = .ok sheet) (ht : Grammar.Trivia source.toList start)
variable (he : Grammar.EndsBare start sheet.items) (hb : BrokenOff blanks ds tail)

include h ht he hb

theorem gaveUp_of_brokenOff :
    Reader.Parts.sheet.GaveUp (source.toList ++ (blanks ++ (ds ++ tail)))
      ⟨tail, [.character '%']⟩ := by
  have ⟨_, _, _, hd⟩ := derives_iff.mp h
  exact he.gaveUp ht hd hb.apart hb.gaveUp

theorem parseChars_of_brokenOff :
    parseChars (source.toList ++ (blanks ++ (ds ++ tail))) =
      .error ⟨.after (source.toList ++ blanks), [.lineBreak, .endOfInput], .ofText (ds ++ tail)⟩ := by
  have ⟨_, _, _, hd⟩ := derives_iff.mp h
  have hs : Reader.sheet (source.toList ++ (blanks ++ (ds ++ tail))) =
      .rejected ⟨ds ++ tail, [.lineBreak, .endOfInput]⟩ := by
    rw [Reader.sheet_eq, he.skipTrivia_eq ht, he.topItems_eq hd hb.apart hb.itemEnd_eq]
    rfl
  rw [← List.append_assoc] at hs ⊢
  exact parse_eq_error_of_sheet hs

-- The fault is at the digits, although a percentage was tried there and gave up behind them.
theorem parse_of_brokenOff :
    let text := source ++ String.ofList (blanks ++ (ds ++ tail))
    Reader.Parts.sheet.GaveUp text.toList ⟨tail, [.character '%']⟩ ∧
      parse text =
        .error ⟨.after (source.toList ++ blanks), [.lineBreak, .endOfInput], .ofText (ds ++ tail)⟩ ∧
      (Location.after (source.toList ++ blanks)).offset <
        (ParseError.atRest text.toList tail [.character '%']).location.offset := by
  simp only [parse, String.toList_append, String.toList_ofList]
  refine ⟨gaveUp_of_brokenOff h ht he hb, parseChars_of_brokenOff h ht he hb, ?_⟩
  have hs : source.toList ++ (blanks ++ (ds ++ tail)) = (source.toList ++ blanks ++ ds) ++ tail := by
    simp only [List.append_assoc]
  rw [hs, ParseError.atRest_append, Location.offset_after_append (s := source.toList ++ blanks)]
  exact Nat.lt_add_of_pos_right <| Location.offset_after_pos hb.digits_ne_nil

end BrokenOff

-- The percentage was given up at the question mark, two characters further on.
example :
    parse "a: #ffffff 33?" =
      .error ⟨⟨11, 1, 12⟩, [.lineBreak, .endOfInput], .line ['3', '3', '?']⟩ := by
  with_unfolding_all rfl

end Sheet

end Palette
