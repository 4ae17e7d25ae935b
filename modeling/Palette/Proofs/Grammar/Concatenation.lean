import Palette.Proofs.Grammar.Appending
import Palette.Proofs.Grammar.Exactness
import Palette.Proofs.Grammar.Location

-- What is written on the lines behind a sheet is read as if it stood alone. The sheet in front of it
-- means the same as before, wherever it ends: behind an item, in blanks or in a comment.

namespace Palette

-- A text and another one on the lines behind it.
def followedBy (t s : List Char) : List Char :=
  s ++ '\n' :: t

namespace Reader

-- What a sheet is read with behind the trivia that it begins with.
def topItems : Reader (List TopItem) :=
  manyTill (do let i ← topItem; itemEnd endOfInput; return i) endOfInput

theorem sheet_eq (s : List Char) : sheet s = (topItems (skipTrivia s)).map Sheet.mk := by
  have h : sheet = trivia >>= fun _ => topItems >>= fun items => pure ⟨items⟩ := rfl
  simp only [h, bind, trivia]
  cases topItems (skipTrivia s) <;> rfl

end Reader

namespace Grammar

open Reader

variable {s rest t : List Char}

-- A comment that went up to the end of the text now goes up to the end of its line.
theorem Comment.followed (h : Comment s rest) : Comment (followedBy t s) (followedBy t rest) := by
  cases h
  case last text hn => exact .line hn .lf
  case line text _ hn hb =>
    rw [followedBy, List.cons_append, List.cons_append, List.append_assoc]
    exact .line hn hb.append

theorem optionalComment_followed (h : s = rest ∨ Comment s rest) :
    followedBy t s = followedBy t rest ∨ Comment (followedBy t s) (followedBy t rest) :=
  h.imp (congrArg _) .followed

theorem Trivia.followed (h : Trivia s rest) : Trivia (followedBy t s) (followedBy t rest) := by
  induction h
  case nil             => exact .nil
  case blank hc _ ih   => exact .blank hc ih
  case comment hc _ ih => exact .comment hc.followed ih

theorem ends_followed (h : Ends s) : Ends (followedBy t s) := by
  have ⟨s₁, hb, hs⟩ := h
  refine ⟨followedBy t s₁, hb.append, ?_⟩
  cases s₁
  case nil  => simp [followedBy, StartsIn, endsValue]
  case cons => exact hs

-- The line feed in between is trivia, or else it ends the last item.

theorem itemEnd_followed (h : ItemEnd (· = []) s rest) :
    itemEnd endOfInput (followedBy t s) = .accepted () (skipTrivia (followedBy t rest)) := by
  simp only [itemEnd, bind_eq_accepted, orElse_eq_accepted, trivia_eq_accepted]
  rcases h with ⟨hb, hc, hl, hr⟩ | ⟨hb, hc, rfl⟩
  case line =>
    have hl : LineBreak (followedBy t _) (followedBy t _) := hl.append
    have hc := optionalComment_followed (t := t) hc
    refine ⟨(), _, lineTail_complete hb.append hc (lineBreak_starts hl), .inl ?_⟩
    exact ⟨(), _, lineBreak_complete hl, skipTrivia_of_trivia hr.followed⟩
  case last =>
    have hl : LineBreak (followedBy t []) t := .lf
    have hc := optionalComment_followed (t := t) hc
    refine ⟨(), _, lineTail_complete hb.append hc (lineBreak_starts hl), .inl ?_⟩
    exact ⟨(), _, lineBreak_complete hl, (skipTrivia_cons rfl).symm⟩

-- By induction on the derivation. Behind the last item the text on the next line is read as it is
-- where it stands alone.
theorem topItems_followed {items : List Palette.TopItem} (h : TopItems s items)
    (hd : Palette.Item.depths (Sheet.mk items).body ≤ maxNesting) :
    topItems (skipTrivia (followedBy t s)) = (topItems (skipTrivia t)).map (items ++ ·) := by
  induction h
  case nil =>
    rw [followedBy, List.nil_append, skipTrivia_cons rfl]
    cases topItems (skipTrivia t) <;> rfl
  case cons s i s₁ s₂ items hi he hr ih =>
    have ⟨hd, hr'⟩ := depths_body_cons.mp hd
    have hs : Ends s₁ := .of_itemEnd (endOfText · |>.left) he
    have hi : TopItem (followedBy t s) i (followedBy t s₁) := hi.append
    have hi' := hi.complete hd (ends_followed hs)
    have he := itemEnd_followed (t := t) he
    have hl := (forward_itemEnd .endOfInput).accepted he |>.length_le
    have hm : topItems (followedBy t s) =
        (topItems (skipTrivia (followedBy t s₂))).map (i :: ·) :=
      manyTill_step (endOfInput_rejects.mpr <| topItem_ne_nil hi) (ended_complete hi' he)
        (hl.trans_lt <| topItem_consumes hi')
    rw [skipTrivia_stops <| topItem_starts hi, hm, ih hr', Reply.map_map]
    rfl

theorem sheet_followed {d : Sheet} (h : sheet s = .accepted d rest) :
    sheet (followedBy t s) = (sheet t).map fun d' => ⟨d.items ++ d'.items⟩ := by
  have ⟨start, ht, hi, hd⟩ := sheet_sound h
  rw [sheet_eq, skipTrivia_of_trivia ht.followed, topItems_followed hi hd, sheet_eq, Reply.map_map,
    Reply.map_map]
  rfl

end Grammar

namespace Location

theorem after_followedBy {front s : List Char} :
    after (followedBy front s) =
      ⟨(after s).offset + 1 + (after front).offset, (after front).line + 1 + s.count '\n',
        (after front).column⟩ := by
  rw [followedBy, after_append_lineFeed, line_after]
  congr 1
  omega

end Location

namespace ParseError

-- The error where its text stands on the lines behind another one.
def onLinesBehind (front : String) (e : ParseError) : ParseError where
  location :=
    ⟨front.utf8ByteSize + 1 + e.location.offset, e.location.line + 1 + front.toList.count '\n',
      e.location.column⟩
  expected := e.expected
  found := e.found

theorem atRest_followedBy {s : String} {rest t : List Char} {expected : List Expectation}
    (h : rest <:+ t) :
    atRest (followedBy t s.toList) rest expected = (atRest t rest expected).onLinesBehind s := by
  obtain ⟨front, rfl⟩ := h
  have hs : followedBy (front ++ rest) s.toList = followedBy front s.toList ++ rest := by
    simp [followedBy]
  rw [hs, atRest_append, atRest_append, Location.after_followedBy, Location.offset_after]
  rfl

end ParseError

namespace Sheet

theorem parseChars_followedBy {s : String} {t : List Char} {d : Sheet} (h : parse s = .ok d) :
    parseChars (followedBy t s.toList) =
      ((parseChars t).map fun d' => ⟨d.items ++ d'.items⟩).mapError (·.onLinesBehind s) := by
  have ⟨_, hs⟩ := parse_eq_ok.mp h
  have hf := Reader.forward_sheet t
  simp only [parseChars, Grammar.sheet_followed hs]
  cases ht : Reader.sheet t <;> rw [ht] at hf
  case accepted => rfl
  all_goals exact congrArg Except.error <| ParseError.atRest_followedBy hf

-- Put behind a sheet, with a line feed in between, a sheet adds its items to those of the first one.
-- If it is none, it fails as it does alone, as many bytes and lines later as there are before it.
theorem parse_append_lineFeed (s₁ s₂ : String) (d₁ : Sheet) (h : parse s₁ = .ok d₁) :
    (∀ d₂, parse s₂ = .ok d₂ → parse (s₁ ++ "\n" ++ s₂) = .ok ⟨d₁.items ++ d₂.items⟩) ∧
    ∀ e, parse s₂ = .error e →
      parse (s₁ ++ "\n" ++ s₂) = .error
        { location :=
            { offset := s₁.utf8ByteSize + 1 + e.location.offset
              line   := e.location.line + 1 + s₁.toList.count '\n'
              column := e.location.column }
          expected := e.expected
          found    := e.found } := by
  have hp : parse (s₁ ++ "\n" ++ s₂) =
      ((parse s₂).map fun d₂ => ⟨d₁.items ++ d₂.items⟩).mapError (·.onLinesBehind s₁) := by
    have hs : (s₁ ++ "\n" ++ s₂).toList = followedBy s₂.toList s₁.toList := by simp [followedBy]
    rw [parse, hs]
    exact parseChars_followedBy h
  constructor
  case left  => intro d₂ h₂; rw [hp, h₂]; rfl
  case right => intro e h₂; rw [hp, h₂]; rfl

-- A group without items, behind which there is another one or something that is no item.
theorem parse_append_lineFeed_group :
    parse ("x\x7b\x7d" ++ "\n" ++ "x\x7b\x7d") =
        .ok ⟨[.item (.group "x" [])] ++ [.item (.group "x" [])]⟩ ∧
      parse ("x\x7b\x7d" ++ "\n" ++ "?") =
        .error ⟨⟨4, 2, 1⟩, [.character '$', .name], .line ['?']⟩ := by
  have hx : parse "x\x7b\x7d" = .ok ⟨[.item (.group "x" [])]⟩ := by
    have hi : Grammar.Item ['x', '\x7b', '\x7d'] (.group "x" []) [] :=
      .group (.of_all 'x' [] rfl) .nil .nil .nil
    exact parse_of_topItems (.cons (.item hi) (.last .nil (.inl rfl) rfl) .nil) (by decide)
  have hq : parse "?" = .error ⟨⟨0, 1, 1⟩, [.character '$', .name], .line ['?']⟩ := by
    have ht : Reader.skipTrivia ['?'] = ['?'] := Reader.skipTrivia_stops <|
      Reader.Stops.cons_iff.mpr rfl
    have hs : Reader.sheet ['?'] = .rejected ⟨['?'], [.character '$', .name]⟩ :=
      Grammar.sheet_rejected ht nofun rfl
    simp only [parse, parseChars, String.reduceToList, hs]
    rfl
  exact ⟨(parse_append_lineFeed "x\x7b\x7d" "x\x7b\x7d" _ hx).left _ hx,
    (parse_append_lineFeed "x\x7b\x7d" "?" _ hx).right _ hq⟩

end Sheet

end Palette
