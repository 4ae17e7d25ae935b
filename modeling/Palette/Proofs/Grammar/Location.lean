import Palette.Sheet.ParseError

-- Places in texts that are put together: bytes and lines add up, and columns start over behind every
-- line feed.

namespace Palette

namespace Location

variable {s t front rest : List Char} {l : Location}

-- What is stepped over moves a place on by as much as it takes, wherever the place is.
theorem foldl_step_shift (bytes lines : Nat) :
    t.foldl step ⟨bytes + l.offset, lines + l.line, l.column⟩ =
      ⟨bytes + (t.foldl step l).offset, lines + (t.foldl step l).line, (t.foldl step l).column⟩ := by
  induction t generalizing l
  case nil => rfl
  case cons c t ih =>
    rw [List.foldl_cons, List.foldl_cons, ← ih]
    simp only [step]
    split <;> simp [Nat.add_assoc]

theorem offset_foldl_step : (t.foldl step l).offset = l.offset + (after t).offset := by
  induction t generalizing l
  case nil => rfl
  case cons c t ih =>
    simp only [after, List.foldl_cons] at ih ⊢
    rw [ih, ih (l := start.step c)]
    simp only [step, start]
    split <;> simp [Nat.add_assoc]

theorem offset_after_append : (after (s ++ t)).offset = (after s).offset + (after t).offset := by
  rw [after_append, offset_foldl_step]

theorem offset_after_singleton (c : Char) : (after [c]).offset = c.utf8Size := by
  simp only [after, List.foldl_cons, List.foldl_nil, step, start]
  split <;> simp

theorem offset_after_pos (h : s ≠ []) : 0 < (after s).offset := by
  obtain ⟨c, rest, rfl⟩ := List.exists_cons_of_ne_nil h
  rw [← List.singleton_append, offset_after_append, offset_after_singleton]
  exact Nat.add_pos_left c.utf8Size_pos _

theorem offset_after (s : String) : (after s.toList).offset = s.utf8ByteSize := by
  suffices ∀ cs, (after cs).offset = (String.ofList cs).utf8ByteSize by simpa using this s.toList
  intro cs
  induction cs
  case nil => rfl
  case cons c cs ih =>
    rw [← List.singleton_append, offset_after_append, offset_after_singleton, ih,
      String.ofList_append, String.utf8ByteSize_append, ← String.singleton_eq_ofList,
      String.utf8ByteSize_singleton]

theorem line_foldl_step : (t.foldl step l).line = l.line + t.count '\n' := by
  induction t generalizing l
  case nil => rfl
  case cons c t ih =>
    rw [List.foldl_cons, ih, step, List.count_cons]
    split
    case isTrue h  => simp [h, Nat.add_left_comm, Nat.add_comm]
    case isFalse h => simp [h]

theorem line_after : (after s).line = s.count '\n' + 1 :=
  line_foldl_step.trans <| Nat.add_comm ..

theorem after_append_lineFeed :
    after (s ++ '\n' :: t) =
      ⟨(after s).offset + 1 + (after t).offset, (after s).line + (after t).line, (after t).column⟩ := by
  rw [after_append, List.foldl_cons]
  exact foldl_step_shift (l := start) ((after s).offset + 1) (after s).line

-- A place is where its offset says, as no character takes no bytes.
theorem takeBytes_after : takeBytes (after front).offset (front ++ rest) = front := by
  induction front
  case nil =>
    cases rest
    case nil => rfl
    case cons c rest =>
      have hc : ¬c.utf8Size ≤ (after []).offset := Nat.not_le.mpr c.utf8Size_pos
      rw [List.nil_append, takeBytes, if_neg hc]
  case cons c front ih =>
    rw [← List.singleton_append, offset_after_append, offset_after_singleton]
    simp [takeBytes, ih]

end Location

namespace ParseError

theorem atRest_append {front rest : List Char} {expected : List Expectation} :
    atRest (front ++ rest) rest expected = ⟨.after front, expected, .ofText rest⟩ := by
  simp [atRest]

end ParseError

end Palette
