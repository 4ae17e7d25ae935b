import Palette.Proofs.Grammar.Safety

-- What is found at a place. It is said by quoting the line from there on, unless there is nothing more
-- or a line feed. In front of a carriage return and a line feed the quotation is empty.

namespace Palette

namespace Found

variable {s line : List Char} {c : Char}

-- A line ends at a line break of either kind and at the end of the text.
def AtLineEnd (s : List Char) : Prop :=
  s = [] ∨ ∃ rest, Grammar.LineBreak s rest

-- What is left of the line that a text begins in.
structure RestOfLine (line s : List Char) : Prop where
  ends  : ∃ tail, s = line ++ tail ∧ AtLineEnd tail
  first : ∀ k < line.length, ¬AtLineEnd (s.drop k)

namespace RestOfLine

theorem nil (h : AtLineEnd s) : RestOfLine [] s :=
  ⟨⟨s, rfl, h⟩, nofun⟩

theorem cons (hc : ¬AtLineEnd (c :: s)) (h : RestOfLine line s) : RestOfLine (c :: line) (c :: s) where
  ends := h.ends.imp fun _ ⟨hs, ht⟩ => ⟨congrArg (c :: ·) hs, ht⟩
  first k hk := by
    cases k
    case zero => exact hc
    case succ k => exact h.first k <| Nat.lt_of_succ_lt_succ hk

end RestOfLine

theorem restOfLine_firstLine (s : List Char) : RestOfLine (firstLine s) s := by
  fun_induction firstLine s
  case case1 => exact .nil <| .inl rfl
  case case2 => exact .nil <| .inr ⟨_, .lf⟩
  case case3 => exact .nil <| .inr ⟨_, .crlf⟩
  case case4 hn hr ih =>
    refine ih.cons ?_
    rintro (⟨⟨⟩⟩ | ⟨_, h⟩)
    cases h
    case lf   => exact hn rfl
    case crlf => exact hr _ rfl rfl

theorem firstLine_eq_nil_iff : firstLine s = [] ↔ AtLineEnd s := by
  have ⟨⟨tail, hs, ht⟩, hf⟩ := restOfLine_firstLine s
  constructor
  case mp =>
    intro h
    rw [h] at hs
    exact hs ▸ ht
  case mpr =>
    intro h
    by_contra hn
    exact hf 0 (List.length_pos_iff.mpr hn) h

-- What is neither the end nor a line feed is quoted.
theorem ofText_of_ne (hn : s ≠ []) (hl : s.head? ≠ some '\n') :
    ofText s = if (firstLine s).length ≤ maxExcerpt then .line (firstLine s)
      else .lineStart ((firstLine s).take maxExcerpt) := by
  unfold ofText
  split
  case h_1 => contradiction
  case h_2 => exact absurd rfl hl
  case h_3 => rfl

theorem text_eq_quotation (hn : s ≠ []) (hl : s.head? ≠ some '\n') :
    (ofText s).text =
      if (firstLine s).length ≤ maxExcerpt then "'" ++ String.ofList (firstLine s) ++ "'"
      else "'" ++ String.ofList ((firstLine s).take maxExcerpt) ++ "...'" := by
  rw [ofText_of_ne hn hl]
  split <;> rfl

-- By what a text begins with, and what is said to be found there.
theorem text_cases (s : List Char) :
    s = [] ∧ (ofText s).text = "end of input" ∨
    (∃ rest, s = '\n' :: rest) ∧ (ofText s).text = "line break" ∨
    s ≠ [] ∧ s.head? ≠ some '\n' ∧ (ofText s).text.toList.head? = some '\'' := by
  by_cases hn : s = []
  case pos => exact .inl ⟨hn, hn ▸ rfl⟩
  case neg =>
    by_cases hl : s.head? = some '\n'
    case neg =>
      refine .inr <| .inr ⟨hn, hl, ?_⟩
      rw [text_eq_quotation hn hl]
      split <;> simp
    case pos =>
      obtain ⟨rest, rfl⟩ := List.head?_eq_some_iff.mp hl
      exact .inr <| .inl ⟨⟨rest, rfl⟩, rfl⟩

theorem text_eq_endOfInput_iff : (ofText s).text = "end of input" ↔ s = [] := by
  rcases text_cases s with ⟨rfl, ht⟩ | ⟨⟨_, rfl⟩, ht⟩ | ⟨hn, -, ht⟩
  · simp [ht]
  · simp [ht]
  · exact iff_of_false (fun h => by simp [h] at ht) hn

theorem text_eq_lineBreak_iff : (ofText s).text = "line break" ↔ ∃ rest, s = '\n' :: rest := by
  rcases text_cases s with ⟨rfl, ht⟩ | ⟨hs, ht⟩ | ⟨-, hl, ht⟩
  · simp [ht]
  · simp [hs, ht]
  · refine iff_of_false (fun h => by simp [h] at ht) ?_
    rintro ⟨rest, rfl⟩
    exact hl rfl

-- The quotation is empty where a line ends without a line feed coming next.
theorem text_eq_quotes_iff : (ofText s).text = "''" ↔ ∃ rest, s = '\r' :: '\n' :: rest := by
  rcases text_cases s with ⟨rfl, ht⟩ | ⟨⟨_, rfl⟩, ht⟩ | ⟨hn, hl, -⟩
  · simp [ht]
  · simp [ht]
  · trans AtLineEnd s
    · rw [← firstLine_eq_nil_iff, text_eq_quotation hn hl, ← String.toList_inj]
      cases firstLine s
      case nil  => simp
      case cons => split <;> simp [maxExcerpt]
    · constructor
      case mpr => exact fun ⟨rest, hs⟩ => .inr ⟨rest, hs ▸ .crlf⟩
      case mp =>
        rintro (hs | ⟨rest, hs⟩)
        · exact absurd hs hn
        · cases hs
          case lf   => exact absurd rfl hl
          case crlf => exact ⟨rest, rfl⟩

-- What is said to be found, by the text that is left. The end and a line feed are named, and other text
-- is quoted up to the end of its line, or 16 characters of it where there are more.
structure Describes (found : Found) (rest : List Char) : Prop where
  endOfInput : found.text = "end of input" ↔ rest = []
  lineFeed   : found.text = "line break" ↔ ∃ t, rest = '\n' :: t
  crlf       : found.text = "''" ↔ ∃ t, rest = '\r' :: '\n' :: t
  line       : ¬AtLineEnd rest → ∃ line, line ≠ [] ∧ RestOfLine line rest ∧
    found.text =
      if line.length ≤ 16 then "'" ++ String.ofList line ++ "'"
      else "'" ++ String.ofList (line.take 16) ++ "...'"

theorem describes_ofText (s : List Char) : (ofText s).Describes s := by
  refine ⟨text_eq_endOfInput_iff, text_eq_lineBreak_iff, text_eq_quotes_iff, fun h => ?_⟩
  have hn : s ≠ [] := fun hs => h <| .inl hs
  have hl : s.head? ≠ some '\n' := fun hs =>
    have ⟨rest, hr⟩ := List.head?_eq_some_iff.mp hs
    h <| .inr ⟨rest, hr ▸ .lf⟩
  exact ⟨_, mt firstLine_eq_nil_iff.mp h, restOfLine_firstLine s, text_eq_quotation hn hl⟩

end Found

namespace Sheet

variable {source : String} {e : ParseError}

-- What is found at an error is what is left of the text there. It is said to be a line break at a line
-- feed only: in front of a carriage return and a line feed the quotation is empty.
theorem found_of_parse (h : parse source = .error e) :
    ∃ front rest, source = front ++ String.ofList rest ∧ e.location.offset = front.utf8ByteSize ∧
      (rest = [] ↔ e.location.offset = source.utf8ByteSize) ∧ e.found.Describes rest := by
  obtain ⟨f, -, hp⟩ := placed_of_parse h
  obtain ⟨front, hs, ho⟩ := hp.split
  refine ⟨front, f.rest, hs, ho, ?_, hp.found ▸ Found.describes_ofText f.rest⟩
  rw [ho, hs]
  simp

-- There are 17 characters in front of the line break.
theorem found_of_parse_long :
    parse "?bcdefghijklmnopq\r\n" =
        .error ⟨⟨0, 1, 1⟩, [.character '$', .name], .lineStart "?bcdefghijklmnop".toList⟩ ∧
      ∃ front rest, "?bcdefghijklmnopq\r\n" = front ++ String.ofList rest ∧
        0 = front.utf8ByteSize ∧ (rest = [] ↔ 0 = "?bcdefghijklmnopq\r\n".utf8ByteSize) ∧
        (Found.lineStart "?bcdefghijklmnop".toList).Describes rest := by
  have ht : Reader.skipTrivia "?bcdefghijklmnopq\r\n".toList = "?bcdefghijklmnopq\r\n".toList :=
    Reader.skipTrivia_stops <| Reader.Stops.cons_iff.mpr rfl
  have he : parse "?bcdefghijklmnopq\r\n" =
      .error ⟨⟨0, 1, 1⟩, [.character '$', .name], .lineStart "?bcdefghijklmnop".toList⟩ :=
    parse_of_topItem ht nofun rfl
  exact ⟨he, found_of_parse he⟩

-- There is no value in front of the line break, and what is found there is no text at all.
theorem parse_lineBreak_unnamed :
    parse "a:\r\n" =
        .error ⟨⟨2, 1, 3⟩, [.character '#', .channels, .character '$', .character '('], .line []⟩ ∧
      (Found.line []).text = "''" := by
  have ht : Reader.skipTrivia "a:\r\n".toList = "a:\r\n".toList :=
    Reader.skipTrivia_stops <| Reader.Stops.cons_iff.mpr rfl
  exact ⟨parse_of_topItem ht nofun rfl, rfl⟩

end Sheet

end Palette
