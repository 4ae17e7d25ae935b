import Mathlib.Data.List.DropRight
import Mathlib.Data.Prod.Lex
import Palette.Proofs.Grammar.Location

-- Places in one text. Lines and columns grow with every character that is stepped over, so that they
-- tell a place as well as its offset does. They can also be counted from the text before the place:
-- lines by its line feeds, columns by what is behind the last one of them.

namespace Palette

namespace Location

variable {s t : List Char} {l m : Location} {text front rest : String} {c : Char} {p q : Nat}

-- The line and the column of a place, of which the line counts first.
def onPage (l : Location) : Nat ×ₗ Nat :=
  toLex (l.line, l.column)

theorem onPage_lt_iff :
    l.onPage < m.onPage ↔ l.line < m.line ∨ l.line = m.line ∧ l.column < m.column :=
  Prod.Lex.toLex_lt_toLex

theorem onPage_lt_step : l.onPage < (l.step c).onPage := by
  rw [onPage_lt_iff, step]
  split
  case isTrue  => exact .inl l.line.lt_succ_self
  case isFalse => exact .inr ⟨rfl, l.column.lt_succ_self⟩

theorem onPage_le_foldl_step : l.onPage ≤ (t.foldl step l).onPage := by
  induction t generalizing l
  case nil => exact le_rfl
  case cons c t ih => exact onPage_lt_step.le.trans ih

theorem onPage_after_lt (h : t ≠ []) : (after s).onPage < (after (s ++ t)).onPage := by
  obtain ⟨c, t, rfl⟩ := List.exists_cons_of_ne_nil h
  rw [after_append, List.foldl_cons]
  exact onPage_lt_step.trans_le onPage_le_foldl_step

-- By induction from the end of the text. A line feed there leaves no character behind itself.
theorem column_after : (after s).column = (s.rtakeWhile (· != '\n')).length + 1 := by
  induction s using List.reverseRecOn
  case nil => rfl
  case append_singleton s c ih =>
    rw [after_concat, step]
    split
    case isTrue h  => rw [List.rtakeWhile_concat_neg _ _ _ (by simp [h])]; rfl
    case isFalse h => rw [List.rtakeWhile_concat_pos _ _ _ (by simp [h]), ih]; simp

theorem takeBytes_of_offset_le (h : (after s).offset ≤ p) : takeBytes p s = s := by
  induction s generalizing p
  case nil => cases p <;> rfl
  case cons c s ih =>
    rw [← List.singleton_append, offset_after_append, offset_after_singleton] at h
    rw [takeBytes, if_pos (Nat.le_trans (Nat.le_add_right ..) h), ih (Nat.le_sub_of_add_le' h)]

theorem inText_append :
    inText (front ++ rest).toList front.utf8ByteSize = after front.toList := by
  rw [inText, String.toList_append, ← offset_after, takeBytes_after]

theorem inText_of_size_le (h : text.utf8ByteSize ≤ p) : inText text.toList p = after text.toList := by
  rw [inText, takeBytes_of_offset_le <| (offset_after text).trans_le h]

-- Of two boundaries between characters, the text up to the first begins the text up to the second.
theorem exists_append_of_lt (hp : String.Pos.Raw.IsValid text ⟨p⟩)
    (hq : String.Pos.Raw.IsValid text ⟨q⟩) (h : p < q) :
    ∃ front mid rest : String, text = front ++ mid ++ rest ∧ mid ≠ "" ∧ p = front.utf8ByteSize ∧
      q = (front ++ mid).utf8ByteSize := by
  obtain ⟨a, a', rfl, ha⟩ := String.Pos.Raw.isValid_iff_exists_append.mp hp
  obtain ⟨b, b', he, hb⟩ := String.Pos.Raw.isValid_iff_exists_append.mp hq
  obtain rfl : p = a.utf8ByteSize := congrArg String.Pos.Raw.byteIdx ha
  obtain rfl : q = b.utf8ByteSize := congrArg String.Pos.Raw.byteIdx hb
  have hs : a.toList ++ a'.toList = b.toList ++ b'.toList := by
    rw [← String.toList_append, he, String.toList_append]
  have hab : ¬b.toList <+: a.toList := by
    rintro ⟨t, ht⟩
    have := congrArg (after · |>.offset) ht
    simp only [offset_after_append, offset_after] at this
    omega
  obtain ⟨t, ht⟩ := (List.prefix_or_prefix_of_prefix ⟨_, hs⟩ ⟨_, rfl⟩).resolve_right hab
  have hm : b = a ++ String.ofList t := String.toList_inj.mp <| by simp [ht]
  refine ⟨a, String.ofList t, b', hm ▸ he, ?_, rfl, hm ▸ rfl⟩
  rintro hn
  rw [hn, String.append_empty] at hm
  exact absurd h <| hm ▸ lt_irrefl _

theorem onPage_inText_lt (hp : String.Pos.Raw.IsValid text ⟨p⟩)
    (hq : String.Pos.Raw.IsValid text ⟨q⟩) (h : p < q) :
    (inText text.toList p).onPage < (inText text.toList q).onPage := by
  obtain ⟨front, mid, rest, rfl, hm, rfl, rfl⟩ := exists_append_of_lt hp hq h
  rw [inText_append, String.append_assoc, inText_append, String.toList_append]
  exact onPage_after_lt <| mt String.toList_eq_nil_iff.mp hm

-- A line by its line feeds, and a column by what is behind the last one of them.
theorem inText_eq_counted : inText (front ++ rest).toList front.utf8ByteSize =
    ⟨front.utf8ByteSize, front.toList.count '\n' + 1,
      (front.toList.rtakeWhile (· != '\n')).length + 1⟩ := by
  rw [inText_append, ← offset_after, ← line_after, ← column_after]

theorem inText_singleton :
    inText (front ++ String.singleton c ++ rest).toList (front.utf8ByteSize + c.utf8Size) =
      (inText (front ++ String.singleton c ++ rest).toList front.utf8ByteSize).step c := by
  have hs : front.utf8ByteSize + c.utf8Size = (front ++ String.singleton c).utf8ByteSize := by simp
  rw [hs, inText_append, String.append_assoc, inText_append, ← after_concat]
  simp

-- Line and column of the boundaries between the characters of a text. The earlier one is before the
-- later one on the page, so that no two of them are at the same place; the first one is at line 1 and
-- column 1; behind a line feed another line begins, and behind any other character, however many
-- bytes it takes, there is another column; beyond the end everything is at the end.
theorem inText_faithful (text : String) :
    (∀ p q, String.Pos.Raw.IsValid text ⟨p⟩ → String.Pos.Raw.IsValid text ⟨q⟩ → p < q →
      (inText text.toList p).onPage < (inText text.toList q).onPage) ∧
    (∀ p q, String.Pos.Raw.IsValid text ⟨p⟩ → String.Pos.Raw.IsValid text ⟨q⟩ →
      (inText text.toList p).line = (inText text.toList q).line →
      (inText text.toList p).column = (inText text.toList q).column → p = q) ∧
    inText text.toList 0 = ⟨0, 1, 1⟩ ∧
    (∀ front c rest, text = front ++ String.singleton c ++ rest →
      let l := inText text.toList front.utf8ByteSize
      inText text.toList (front.utf8ByteSize + c.utf8Size) =
        if c = '\n' then ⟨front.utf8ByteSize + c.utf8Size, l.line + 1, 1⟩
        else ⟨front.utf8ByteSize + c.utf8Size, l.line, l.column + 1⟩) ∧
    (∀ front rest, text = front ++ rest → inText text.toList front.utf8ByteSize =
      ⟨front.utf8ByteSize, front.toList.count '\n' + 1,
        (front.toList.rtakeWhile (· != '\n')).length + 1⟩) ∧
    ∀ p, text.utf8ByteSize ≤ p → inText text.toList p = inText text.toList text.utf8ByteSize := by
  refine ⟨fun _ _ => onPage_inText_lt, ?unique, ?start, ?step, ?counted, ?beyond⟩
  case unique =>
    intro p q hp hq hl hc
    have he : (inText text.toList p).onPage = (inText text.toList q).onPage :=
      congrArg toLex <| Prod.ext hl hc
    rcases Nat.lt_trichotomy p q with h | h | h
    · exact absurd he (onPage_inText_lt hp hq h).ne
    · exact h
    · exact absurd he (onPage_inText_lt hq hp h).ne'
  case start =>
    simpa using @inText_eq_counted "" text
  case step =>
    rintro front c rest rfl l
    have ho : l.offset = front.utf8ByteSize := by
      simp only [l, String.append_assoc, inText_eq_counted]
    rw [inText_singleton, step, ho]
  case counted =>
    rintro front rest rfl
    exact inText_eq_counted
  case beyond =>
    intro p hp
    rw [inText_of_size_le hp, inText_of_size_le le_rfl]

-- The é takes two bytes, and behind it there are two line feeds.
theorem inText_faithful_lineFeeds :
    (String.Pos.Raw.IsValid "é\n\nb" ⟨2⟩ ∧ String.Pos.Raw.IsValid "é\n\nb" ⟨4⟩ ∧ 2 < 4 ∧
      (inText "é\n\nb".toList 2).onPage < (inText "é\n\nb".toList 4).onPage) ∧
    ("é\n\nb" = "" ++ String.singleton 'é' ++ "\n\nb" ∧
      inText "é\n\nb".toList 2 = ⟨2, 1, 2⟩) ∧
    ("é\n\nb" = "é\n" ++ "\nb" ∧ inText "é\n\nb".toList 3 = ⟨3, 2, 1⟩) ∧
    "é\n\nb".utf8ByteSize ≤ 9 ∧ inText "é\n\nb".toList 9 = inText "é\n\nb".toList 5 := by
  have valid (front rest : String) :
      String.Pos.Raw.IsValid (front ++ rest) ⟨front.utf8ByteSize⟩ :=
    String.Pos.Raw.isValid_iff_exists_append.mpr ⟨front, rest, rfl, rfl⟩
  have h₂ : String.Pos.Raw.IsValid "é\n\nb" ⟨2⟩ := valid "é" "\n\nb"
  have h₄ : String.Pos.Raw.IsValid "é\n\nb" ⟨4⟩ := valid "é\n\n" "b"
  obtain ⟨lt, -, -, step, counted, beyond⟩ := inText_faithful "é\n\nb"
  have hs : "é\n\nb" = "" ++ String.singleton 'é' ++ "\n\nb" := rfl
  exact ⟨⟨h₂, h₄, by decide, lt 2 4 h₂ h₄ (by decide)⟩, ⟨hs, step "" 'é' "\n\nb" hs⟩,
    ⟨rfl, counted "é\n" "\nb" rfl⟩, by decide, beyond 9 (by decide)⟩

end Location

end Palette
