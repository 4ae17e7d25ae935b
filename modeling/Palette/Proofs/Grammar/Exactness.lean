import Palette.Proofs.Grammar.Completeness
import Palette.Proofs.Grammar.Progress

-- Items, groups and whole sheets: what the grammar derives is what is read.

namespace Palette

open Grammar

namespace Reader

variable {s rest : List Char} {u : Unit}

theorem skipTrivia_stops (h : Stops startsTrivia s) : skipTrivia s = s := by
  cases s
  case nil => simp [skipTrivia]
  case cons c s =>
    have hc := Stops.cons_iff.mp h
    simp only [startsTrivia, decide_eq_false_iff_not, List.mem_cons, List.not_mem_nil, or_false,
      not_or] at hc
    have ha : afterComment? (c :: s) = none := by
      unfold afterComment?
      split <;> simp_all
    rw [skipTrivia, if_neg (by simp [isBlank, isLineBreak, hc])]
    split <;> simp_all

theorem skipTrivia_comment {s₁ : List Char} (h : Comment s s₁) :
    skipTrivia s = skipTrivia s₁ := by
  have ha := afterComment?_of_comment h
  cases h <;> rw [skipTrivia.eq_2, if_neg (by simp [isBlank, isLineBreak])] <;> split <;>
    simp_all

theorem skipTrivia_afterComment? (h : afterComment? s = some rest) :
    skipTrivia s = skipTrivia rest :=
  skipTrivia_comment <| comment_of_afterComment? h

theorem skipTrivia_cons {c : Char} (h : isBlank c || isLineBreak c) :
    skipTrivia (c :: s) = skipTrivia s := by
  rw [skipTrivia, if_pos h]

theorem skipTrivia_of_trivia (h : Trivia s rest) : skipTrivia s = skipTrivia rest := by
  induction h
  case nil             => rfl
  case comment h _ ih  => exact (skipTrivia_comment h).trans ih
  case blank hc _ ih =>
    exact (skipTrivia_cons <| by simpa [isBlank, isLineBreak, or_assoc] using hc).trans ih

theorem trivia_complete (h : Trivia s rest) (hs : Stops startsTrivia rest) :
    trivia s = .accepted () rest := by
  rw [trivia, skipTrivia_of_trivia h, skipTrivia_stops hs]

theorem lineBreak_complete (h : LineBreak s rest) : lineBreak s = .accepted () rest := by
  cases h <;> rfl

theorem lineBreak_stops (h : Stops isLineBreak s) :
    lineBreak s = .rejected ⟨s, [.lineBreak]⟩ := by
  unfold lineBreak
  split <;> simp_all [isLineBreak]

theorem lineBreak_rejects (h : Stops isLineBreak s) : Rejects lineBreak s :=
  ⟨_, lineBreak_stops h⟩

-- Neither a blank nor a comment can stand there.
def continuesLine (c : Char) : Bool :=
  c ∈ [' ', '\t', '/']

theorem lineBreak_starts (h : LineBreak s rest) : Stops continuesLine s := by
  cases h <;> simp [continuesLine]

theorem afterComment?_stops (h : Stops continuesLine s) : afterComment? s = none := by
  unfold afterComment?
  split <;> simp_all [continuesLine]

theorem lineTail_complete {s₁ : List Char} (hb : Blanks s s₁) (ht : s₁ = rest ∨ Comment s₁ rest)
    (hs : Stops continuesLine rest) : lineTail s = .accepted () rest := by
  have blank (c : Char) (h : isBlank c) : continuesLine c := by
    rcases isBlank_iff.mp h with _ | ⟨_, _ | ⟨_, ⟨⟩⟩⟩ <;> rfl
  rcases ht with rfl | ht
  · simp [lineTail, blanks_complete hb (hs.imp blank), afterComment?_stops hs]
  · have hc : Stops isBlank s₁ := by cases ht <;> simp [isBlank]
    simp [lineTail, blanks_complete hb hc, afterComment?_of_comment ht]

theorem itemEnd_complete {closer : Reader Unit} {Closes : List Char → Prop}
    (hc : ∀ {s}, Closes s → StartsIn ['}'] s ∧ ∃ u rest, closer s = .accepted u rest)
    (h : ItemEnd Closes s rest) (hs : Stops startsTrivia rest) :
    itemEnd closer s = .accepted () rest := by
  simp only [itemEnd, bind_eq_accepted, orElse_eq_accepted, peek_eq_accepted, bind_rejects]
  rcases h with ⟨hb, ht, hl, hr⟩ | ⟨hb, ht, hr⟩
  case line =>
    exact ⟨(), _, lineTail_complete hb ht (lineBreak_starts hl), .inl ⟨(), _,
      lineBreak_complete hl, trivia_complete hr hs⟩⟩
  case last =>
    obtain ⟨hn, ha⟩ := hc hr
    exact ⟨(), _, lineTail_complete hb ht (hn.stops rfl),
      .inr ⟨.inl (lineBreak_rejects (hn.stops rfl)), rfl, ha⟩⟩

theorem groupOpening_complete {n : String} {s₁ : List Char} (hn : Name s n s₁)
    (hb : Blanks s₁ ('{' :: rest)) : groupOpening s = .accepted n rest := by
  have hs : StartsIn [' ', '\t', '{'] s₁ := .of_blanks hb (by simp) (by simp)
  simp [groupOpening, name_complete hn (hs.stops rfl),
    blanks_complete hb (by simp [isBlank])]

theorem groupOpening_rejects {n : String} {s₁ s₂ : List Char} (hn : Name s n s₁)
    (hs : Separator ':' s₁ s₂) : Rejects groupOpening s := by
  have hn := name_complete hn (separator_stops_alphanum hs rfl)
  obtain ⟨hb, _⟩ := hs
  simp [groupOpening, hn, blanks_complete hb (by simp [isBlank])]

theorem group_rejects {levels : Nat} {n : String} {s₁ s₂ : List Char} (hn : Name s n s₁)
    (hs : Separator ':' s₁ s₂) : Rejects (group levels) s := by
  cases levels <;> simp [group, groupOpening_rejects hn hs]

theorem item_starts {i : Palette.Item} (h : Grammar.Item s i rest) : Stops startsTrivia s := by
  rcases h with ⟨hn, _, _⟩ | ⟨hn, _, _, _⟩ <;> exact name_starts hn

theorem items_start {items : List Palette.Item} (h : Items s items rest) :
    Stops startsTrivia s := by
  rcases h with _ | ⟨hi, _, _⟩
  case nil  => simp [startsTrivia]
  case cons => exact item_starts hi

theorem name_head {n : String} (h : Name s n rest) {c : Char} (hc : c.isAlphanum = false) :
    s.head? ≠ some c := by
  obtain ⟨hn, ha⟩ := h
  have hs : Stops (· == c) (_ ++ rest) := .of_append hn ha fun d hd => by
    rw [beq_eq_false_iff_ne]
    rintro rfl
    simp [hc] at hd
  intro hh
  simpa using hs c hh

theorem item_head {i : Palette.Item} (h : Grammar.Item s i rest) {c : Char}
    (hc : c.isAlphanum = false) : s.head? ≠ some c := by
  rcases h with ⟨hn, _, _⟩ | ⟨hn, _, _, _⟩ <;> exact name_head hn hc

theorem closingBrace {s : List Char} (h : ClosingBrace s) :
    StartsIn ['}'] s ∧ ∃ u rest, character '}' s = .accepted u rest := by
  cases s
  case nil => cases h
  case cons c s =>
    cases h
    exact ⟨by simp [StartsIn], (), s, by simp⟩

-- An item and its end, as they are read one after another.
theorem ended_complete {item : Reader α} {closer : Reader Unit} {a : α} {s₁ : List Char}
    (hi : item s = .accepted a s₁) (he : itemEnd closer s₁ = .accepted () rest) :
    (do let a ← item; itemEnd closer; return a : Reader α) s = .accepted a rest :=
  bind_eq_accepted.mpr ⟨a, s₁, hi, bind_eq_accepted.mpr ⟨(), rest, he, rfl⟩⟩

end Reader

namespace Grammar

open Reader

-- By induction on the derivation. How deep groups nest tells the levels that are left.

mutual

theorem Item.complete {s rest : List Char} {levels : Nat} {i : Palette.Item}
    (h : Item s i rest) (hd : i.depth ≤ levels) (he : Ends rest) :
    orElse (group levels) (.declaration <$> declaration) s = .accepted i rest := by
  simp only [orElse_eq_accepted, map_eq_accepted]
  match h, levels with
  | .declaration h, _ =>
    have ⟨hn, hs, _⟩ := h
    exact .inr ⟨group_rejects hn hs, _, declaration_complete h he, rfl⟩
  | .group _ _ _ _, 0 => simp [Item.depth] at hd
  | .group hn hb ht hi, levels + 1 =>
    apply Or.inl
    simp only [group, bind_eq_accepted, commit_eq_accepted, pure_eq_accepted]
    refine ⟨_, _, groupOpening_complete hn hb, _, rest, bind_eq_accepted.mpr ?_, rfl, rfl⟩
    have hd := Nat.le_of_succ_le_succ <| by simpa [Palette.Item.depth] using hd
    exact ⟨(), _, trivia_complete ht (items_start hi), hi.complete hd⟩

theorem Items.complete {s rest : List Char} {levels : Nat} {items : List Palette.Item}
    (h : Items s items rest) (hd : Palette.Item.depths items ≤ levels) :
    manyTill (do
      let i ← orElse (group levels) (.declaration <$> declaration)
      itemEnd (character '}')
      return i) (character '}') s = .accepted items rest := by
  match h with
  | .nil => exact manyTill_nil (b := ()) (character_eq_accepted.mpr rfl)
  | .cons hi he hr =>
    have hd := Nat.max_le.mp <| by simpa [Palette.Item.depths] using hd
    have hi' := hi.complete hd.left (.of_itemEnd (closingBrace · |>.left) he)
    have he := itemEnd_complete closingBrace he (items_start hr)
    have hl := (forward_itemEnd .character).accepted he |>.length_le
    exact manyTill_cons (by simpa using item_head hi rfl) (ended_complete hi' he)
      (hl.trans_lt <| item_consumes hi') (hr.complete hd.right)

end

theorem TopItem.complete {s rest : List Char} {i : Palette.TopItem} (h : TopItem s i rest)
    (hd : ∀ j, i = .item j → j.depth ≤ maxNesting) (he : Ends rest) :
    topItem s = .accepted i rest := by
  simp only [topItem, orElse_eq_accepted, map_eq_accepted, orElse_rejects, map_rejects]
  rcases h with h | h
  case «variable» => exact .inl <| .inl ⟨_, variableDeclaration_complete h he, rfl⟩
  case item j =>
    have hv : Rejects variableDeclaration s := by
      simp [variableDeclaration, item_head h (c := '$') rfl]
    have hj := h.complete (hd j rfl) he
    simp only [orElse_eq_accepted, map_eq_accepted] at hj
    rcases hj with hj | ⟨hg, d, hj, rfl⟩
    · exact .inl <| .inr ⟨hv, j, hj, rfl⟩
    · exact .inr ⟨⟨hv, hg⟩, d, hj, rfl⟩

theorem topItem_starts {s rest : List Char} {i : Palette.TopItem} (h : TopItem s i rest) :
    Stops startsTrivia s := by
  rcases h with h | h
  case «variable» => simp [startsTrivia]
  case item       => exact item_starts h

theorem topItems_start {s : List Char} {items : List Palette.TopItem} (h : TopItems s items) :
    Stops startsTrivia s := by
  rcases h with _ | ⟨hi, _, _⟩
  case nil  => simp
  case cons => exact topItem_starts hi

theorem topItem_ne_nil {s rest : List Char} {i : Palette.TopItem} (h : TopItem s i rest) :
    s ≠ [] := by
  rcases h with h | h
  case «variable» => simp
  case item =>
    rcases h with ⟨⟨hn, _⟩, _, _⟩ | ⟨⟨hn, _⟩, _, _, _⟩ <;> simp [hn]

theorem endOfText {s : List Char} (h : s = []) :
    StartsIn ['}'] s ∧ ∃ u rest, endOfInput s = .accepted u rest := by
  subst h
  exact ⟨nofun, (), [], rfl⟩

theorem depths_body_cons {i : Palette.TopItem} {items : List Palette.TopItem} {levels : Nat} :
    Palette.Item.depths (Sheet.mk (i :: items)).body ≤ levels ↔
      (∀ j, i = .item j → j.depth ≤ levels) ∧
        Palette.Item.depths (Sheet.mk items).body ≤ levels := by
  cases i <;> simp [Sheet.body, Palette.Item.depths]

theorem TopItems.complete {s : List Char} {items : List Palette.TopItem} (h : TopItems s items)
    (hd : Palette.Item.depths (Sheet.mk items).body ≤ maxNesting) :
    manyTill (do let i ← topItem; itemEnd endOfInput; return i) endOfInput s =
      .accepted items [] := by
  induction h
  case nil => exact manyTill_nil (b := ()) rfl
  case cons s i s₁ s₂ items hi he hr ih =>
    have ⟨hd, hr'⟩ := depths_body_cons.mp hd
    have hi' := hi.complete hd (.of_itemEnd (endOfText · |>.left) he)
    have he := itemEnd_complete endOfText he (topItems_start hr)
    have hl := (forward_itemEnd .endOfInput).accepted he |>.length_le
    exact manyTill_cons (endOfInput_rejects.mpr <| topItem_ne_nil hi) (ended_complete hi' he)
      (hl.trans_lt <| topItem_consumes hi') (ih hr')

theorem sheet_complete {s start : List Char} {d : Sheet} (ht : Trivia s start)
    (hi : TopItems start d.items) (hd : Palette.Item.depths d.body ≤ maxNesting) :
    sheet s = .accepted d [] := by
  have ht := trivia_complete ht (topItems_start hi)
  exact bind_eq_accepted.mpr ⟨(), start, ht, bind_eq_accepted.mpr ⟨_, [], hi.complete hd, rfl⟩⟩

-- Where an item should begin and none does, the sheet fails as the item does.
theorem sheet_rejected {s start : List Char} {f : Fault} (ht : skipTrivia s = start)
    (hs : start ≠ []) (hi : topItem start = .rejected f) : sheet s = .rejected f := by
  have ht : trivia s = .accepted () start := congrArg _ ht
  exact (bind_of_accepted ht).trans <| bind_of_rejected <|
    manyTill_of_rejected (endOfInput_rejects.mpr hs) <| bind_of_rejected hi

end Grammar

theorem Sheet.parse_eq_ok {source : String} {d : Sheet} :
    Sheet.parse source = .ok d ↔ ∃ rest, Reader.sheet source.toList = .accepted d rest := by
  unfold Sheet.parse Sheet.parseChars
  cases Reader.sheet source.toList <;> simp

theorem Sheet.derives_iff {source : String} {d : Sheet} :
    Sheet.parse source = .ok d ↔ Grammar.Derives source d := by
  rw [Sheet.parse_eq_ok]
  constructor
  case mp  => exact fun ⟨_, h⟩ => Reader.sheet_sound h
  case mpr => exact fun ⟨_, ht, hi, hd⟩ => ⟨[], Grammar.sheet_complete ht hi hd⟩

-- The same for a text that is a list of characters, as it is where a derivation is written out.

theorem Grammar.Name.of_all (c : Char) (cs : List Char) {rest : List Char}
    (h : (c :: cs).all Char.isAlphanum) :
    Grammar.Name (c :: (cs ++ rest)) (String.ofList (c :: cs)) rest :=
  .intro (List.cons_ne_nil c cs) (List.all_eq_true.mp h)

theorem Sheet.parse_of_topItems {cs : List Char} {items : List TopItem}
    (hi : Grammar.TopItems cs items) (hd : Item.depths (Sheet.mk items).body ≤ maxNesting) :
    Sheet.parse (String.ofList cs) = .ok ⟨items⟩ :=
  Sheet.derives_iff.mpr ⟨cs, String.toList_ofList ▸ .nil, hi, hd⟩

-- What is read is exactly what the grammar derives. The grammar puts no order on its alternatives
-- and takes none of them back, and even so it gives no text two meanings.
theorem Sheet.parse_exact (source : String) :
    (∀ d, Sheet.parse source = .ok d ↔ Grammar.Derives source d) ∧
    ((∃ d, Grammar.Derives source d) ↔ ∃! d, Grammar.Derives source d) := by
  refine ⟨fun _ => Sheet.derives_iff, fun ⟨d, h⟩ => ⟨d, h, fun d' h' => ?_⟩, ExistsUnique.exists⟩
  rw [← Sheet.derives_iff] at h h'
  exact Except.ok.inj <| h'.symm.trans h

end Palette
