import Palette.Proofs.Grammar.Rules

-- Rules do not look at what is left behind a construct, so that it can be followed by more text. Only a
-- comment may go up to the end of the text, and therefore there has to be something behind it already.

namespace Palette.Grammar

variable {s rest t : List Char}

theorem Blanks.append (h : Blanks s rest) : Blanks (s ++ t) (rest ++ t) := by
  induction h
  case nil         => exact .nil
  case space _ ih  => exact .space ih
  case tab _ ih    => exact .tab ih

theorem LineBreak.append (h : LineBreak s rest) : LineBreak (s ++ t) (rest ++ t) := by
  cases h
  case lf   => exact .lf
  case crlf => exact .crlf

theorem LineBreak.ne_nil (h : LineBreak s rest) : s ≠ [] := by
  cases h <;> simp

theorem Comment.append (h : Comment s rest) (hr : rest ≠ []) : Comment (s ++ t) (rest ++ t) := by
  cases h
  case last => contradiction
  case line text _ hn hb =>
    rw [List.cons_append, List.cons_append, List.append_assoc]
    exact .line hn hb.append

theorem optionalComment_append (h : s = rest ∨ Comment s rest) (hr : rest ≠ []) :
    s ++ t = rest ++ t ∨ Comment (s ++ t) (rest ++ t) :=
  h.imp (congrArg (· ++ t)) (·.append hr)

theorem Trivia.ne_nil (h : Trivia s rest) (hr : rest ≠ []) : s ≠ [] := by
  cases h
  case nil          => exact hr
  case blank        => simp
  case comment hc _ => cases hc <;> simp

theorem Trivia.append (h : Trivia s rest) (hr : rest ≠ []) : Trivia (s ++ t) (rest ++ t) := by
  induction h
  case nil              => exact .nil
  case blank hc _ ih    => exact .blank hc <| ih hr
  case comment hc ht ih => exact .comment (hc.append <| ht.ne_nil hr) (ih hr)

theorem ItemEnd.append {Closes : List Char → Prop} (h : ItemEnd Closes s rest) (hr : rest ≠ [])
    (hc : Closes rest → Closes (rest ++ t)) : ItemEnd Closes (s ++ t) (rest ++ t) := by
  cases h with
  | line hb ht hl hr' =>
    exact .line hb.append (optionalComment_append ht hl.ne_nil) hl.append (hr'.append hr)
  | last hb ht hr' => exact .last hb.append (optionalComment_append ht hr) (hc hr')

theorem Separator.append {c : Char} (h : Separator c s rest) : Separator c (s ++ t) (rest ++ t) := by
  obtain ⟨hb, hb'⟩ := h
  exact .intro hb.append hb'.append

theorem Name.append {n : String} (h : Name s n rest) : Name (s ++ t) n (rest ++ t) := by
  obtain ⟨hn, ha⟩ := h
  rw [List.append_assoc]
  exact .intro hn ha

theorem Digits.append {ds : List Char} (h : Digits s ds rest) : Digits (s ++ t) ds (rest ++ t) := by
  obtain ⟨hn, hd⟩ := h
  rw [List.append_assoc]
  exact .intro hn hd

theorem HexByte.append {x : UInt8} (h : HexByte s x rest) : HexByte (s ++ t) x (rest ++ t) := by
  obtain ⟨ha, hb⟩ := h
  exact .intro ha hb

theorem Opacity.append {x : Binary32} (h : Opacity s x rest) : Opacity (s ++ t) x (rest ++ t) := by
  cases h with
  | full                => exact .full
  | percent hb hs hd hl => exact .percent hb hs.append hd.append hl

theorem HexColor.append {c : Color} (h : HexColor s c rest) : HexColor (s ++ t) c (rest ++ t) := by
  obtain ⟨hr, hg, hb, ha⟩ := h
  exact .intro hr.append hg.append hb.append ha.append

theorem Channel.append {x : UInt8} (h : Channel s x rest) : Channel (s ++ t) x (rest ++ t) := by
  obtain ⟨hd, hl⟩ := h
  exact .intro hd.append hl

theorem Sign.append {b : Bool} (h : Sign s b rest) : Sign (s ++ t) b (rest ++ t) := by
  cases h
  case plus  => exact .plus
  case minus => exact .minus
  case none  => exact .none

theorem Mantissa.append {m : List Char × List Char} (h : Mantissa s m rest) :
    Mantissa (s ++ t) m (rest ++ t) := by
  cases h with
  | whole hd    => exact .whole hd.append
  | point hd    => exact .point hd.append
  | both hd hf  => exact .both hd.append hf.append
  | fraction hf => exact .fraction hf.append

theorem Exponent.append {e : Int} (h : Exponent s e rest) : Exponent (s ++ t) e (rest ++ t) := by
  cases h with
  | none          => exact .none
  | mark hc hs hd => exact .mark hc hs.append hd.append

theorem Numeral.append {n : Palette.Numeral} (h : Numeral s n rest) :
    Numeral (s ++ t) n (rest ++ t) := by
  cases h with
  | decimal hs hm he  => exact .decimal hs.append hm.append he.append
  | infinity ha hb hc => exact .infinity ha hb hc
  | nan ha hb hc      => exact .nan ha hb hc

theorem Alpha.append {x : Binary32} (h : Alpha s x rest) : Alpha (s ++ t) x (rest ++ t) := by
  obtain ⟨hn, hu⟩ := h
  exact .intro hn.append hu

theorem ChannelColor.append {c : Color} (h : ChannelColor s c rest) :
    ChannelColor (s ++ t) c (rest ++ t) := by
  obtain ⟨hb, hr, h₁, hg, h₂, hb', h₃, ha, hc⟩ := h
  exact .intro hb.append hr.append h₁.append hg.append h₂.append hb'.append h₃.append ha.append
    hc.append

theorem Reference.append {r : Palette.Reference} (h : Reference s r rest) :
    Reference (s ++ t) r (rest ++ t) := by
  obtain ⟨hn, ho⟩ := h
  exact .intro hn.append ho.append

theorem Slot.append {slot : Palette.Slot} (h : Slot s slot rest) : Slot (s ++ t) slot (rest ++ t) := by
  cases h with
  | hexColor h     => exact .hexColor h.append
  | channelColor h => exact .channelColor h.append
  | reference h    => exact .reference h.append

theorem Labelled.append {label : String} {slot : Palette.Slot} (h : Labelled label s slot rest) :
    Labelled label (s ++ t) slot (rest ++ t) := by
  obtain ⟨hn, hs, hv⟩ := h
  exact .intro hn.append hs.append hv.append

theorem Pair.append {v : Palette.Value} (h : Pair s v rest) : Pair (s ++ t) v (rest ++ t) := by
  cases h with
  | lightDark hb hl hs hd hc => exact .lightDark hb.append hl.append hs.append hd.append hc.append
  | darkLight hb hd hs hl hc => exact .darkLight hb.append hd.append hs.append hl.append hc.append

theorem Value.append {v : Palette.Value} (h : Value s v rest) : Value (s ++ t) v (rest ++ t) := by
  cases h with
  | plain h => exact .plain h.append
  | pair h  => exact .pair h.append

theorem Declaration.append {d : Palette.Declaration} (h : Declaration s d rest) :
    Declaration (s ++ t) d (rest ++ t) := by
  obtain ⟨hn, hs, hv⟩ := h
  exact .intro hn.append hs.append hv.append

theorem ClosingBrace.append (h : ClosingBrace s) : ClosingBrace (s ++ t) := by
  cases s
  case nil  => cases h
  case cons => exact h

theorem Declaration.ne_nil {d : Palette.Declaration} (h : Declaration s d rest) : s ≠ [] := by
  obtain ⟨⟨hn, _⟩, _, _⟩ := h
  simp [hn]

theorem Item.ne_nil {i : Palette.Item} (h : Item s i rest) : s ≠ [] := by
  cases h with
  | declaration h  => exact h.ne_nil
  | group hn _ _ _ => obtain ⟨hn, _⟩ := hn; simp [hn]

theorem Items.ne_nil {items : List Palette.Item} (h : Items s items rest) : s ≠ [] := by
  cases h with
  | nil        => simp
  | cons h _ _ => exact h.ne_nil

mutual

theorem Item.append {s rest t : List Char} {i : Palette.Item} (h : Item s i rest) :
    Item (s ++ t) i (rest ++ t) := by
  match h with
  | .declaration h     => exact .declaration h.append
  | .group hn hb ht hi => exact .group hn.append hb.append (ht.append hi.ne_nil) hi.append

theorem Items.append {s rest t : List Char} {items : List Palette.Item} (h : Items s items rest) :
    Items (s ++ t) items (rest ++ t) := by
  match h with
  | .nil           => exact .nil
  | .cons hi he hr => exact .cons hi.append (he.append hr.ne_nil ClosingBrace.append) hr.append

end

theorem TopItem.append {i : Palette.TopItem} (h : TopItem s i rest) :
    TopItem (s ++ t) i (rest ++ t) := by
  cases h
  case «variable» h => exact .variable h.append
  case item h       => exact .item h.append

end Palette.Grammar
