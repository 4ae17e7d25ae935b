import Mathlib.Data.List.DropRight
import Palette.Proofs.Grammar.Location
import Palette.Proofs.Grammar.Reports

-- How far a text is read before it is found to be at fault. The fault that is reported is as far on as
-- any at which an attempt was given up, except that digits without a percent sign and slashes without a
-- comment are read again, and that wrong labels are reported where the first of them stands.

namespace Palette

namespace Reader

open Reply

variable {α β : Type} {p q : Reader α} {L M : Fault → List Char → Prop}
variable {s t rest : List Char} {f g : Fault}

-- Where readers reject.

theorem many1_atStart {test : Char → Bool} {expected : List Expectation} :
    AtStart (many1 test expected) := by
  intro s g h
  unfold many1 at h
  split at h <;> cases h
  rfl

theorem spaces_atStart : AtStart spaces :=
  many1_atStart.bind fun _ _ => not_pure_rejects

theorem name_atStart : AtStart name :=
  many1_atStart.bind fun _ _ => not_pure_rejects

theorem endOfInput_atStart : AtStart endOfInput := by
  intro s g h
  unfold endOfInput at h
  split at h <;> cases h
  rfl

theorem lineBreak_atStart : AtStart lineBreak := by
  intro s g h
  unfold lineBreak at h
  split at h <;> cases h
  rfl

theorem newLine_atStart : AtStart (do lineBreak; trivia) :=
  lineBreak_atStart.bind fun _ _ => nofun

theorem opacity_not_rejects : ¬Rejects opacity s := by
  simp [opacity]

theorem hexColor_atStart : AtStart hexColor :=
  .bind .character fun _ _ => by simp [opacity_not_rejects]

theorem channelColor_atStart : AtStart channelColor := by
  refine .bind ?_ fun _ _ => commit_not_rejects
  intro s g h
  unfold channelsOpening at h
  split at h <;> cases h
  rfl

theorem reference_atStart : AtStart reference :=
  .bind .character fun _ _ => by simp [opacity_not_rejects]

theorem slot_atStart : AtStart slot :=
  .orElse (.orElse hexColor_atStart.map channelColor_atStart.map) reference_atStart.map

theorem variableDeclaration_atStart : AtStart variableDeclaration :=
  .bind .character fun _ _ => commit_not_rejects

theorem group_eq_rejected {levels : Nat} (h : group levels s = .rejected g) :
    groupOpening s = .rejected g := by
  cases levels with
  | zero =>
    rcases bind_eq_rejected.mp h with h | ⟨_, _, _, ⟨⟩⟩
    exact h
  | succ levels =>
    rcases bind_eq_rejected.mp h with h | ⟨_, _, _, h⟩
    · exact h
    · rcases bind_eq_rejected.mp h with h | ⟨_, _, _, ⟨⟩⟩
      exact absurd ⟨g, h⟩ commit_not_rejects

-- A group and a declaration begin with a name and blanks, and neither is rejected before them.
theorem group_sooner (levels : Nat) : Sooner (group levels) declaration := by
  intro s g h
  have hd : declaration s = (labelled value s).map fun nv => ⟨nv.1, nv.2⟩ := bind_pure_eq
  rw [hd, rest_map]
  rcases bind_eq_rejected.mp <| group_eq_rejected h with h | ⟨n, s₁, hn, h⟩
  · have hl : labelled value s = .rejected g := bind_of_rejected h
    exact hl ▸ le_rfl
  · have brace : AtStart (do character '{'; return n) := .bind .character fun _ _ => not_pure_rejects
    have colon : Forward ((do character ':'; blanks) >>= fun _ => do
        let v ← commit value
        return (n, v)) :=
      .bind (.bind .character fun _ => forward_blanks) fun _ =>
        forward_value.commit.bind fun _ => .pure _
    have hl : labelled value s = _ := bind_of_accepted hn
    rw [hl, brace _ g h]
    exact (colon (s₁.dropWhile isBlank)).suffix.length_le

-- What is read again begins with a digit or a slash.
def isReread (c : Char) : Bool :=
  c.isDigit || c == '/'

theorem isWhite_of_isReread {c : Char} (h : isReread c) : isWhite c = false := by
  have none : NonePass isReread [' ', '\t', '\r', '\n'] := rfl
  refine Bool.eq_false_iff.mpr fun hw => none.not_mem h ?_
  simpa [isWhite, isBlank, isLineBreak, or_assoc] using hw

theorem character_rejectsHere {test : Char → Bool} {c d : Char} (hd : test d) (hc : test c = false) :
    RejectsHere (character c) (d :: s) := by
  refine .of_start .character <| character_rejects.mpr ?_
  rintro ⟨rfl⟩
  exact Bool.false_ne_true <| hc.symm.trans hd

-- What closes the items of a group or of a sheet.
structure Closes (closer : Reader Unit) : Prop where
  forward : Forward closer
  atStart : AtStart closer
  rejects : ∀ {c s}, isReread c → Rejects closer (c :: s)

theorem closes_brace : Closes (character '}') where
  forward   := .character
  atStart   := .character
  rejects h := (character_rejectsHere h rfl).rejects

theorem closes_endOfInput : Closes endOfInput where
  forward   := .endOfInput
  atStart   := endOfInput_atStart
  rejects _ := endOfInput_rejects.mpr nofun

section Closes

variable {item : Reader α} {closer : Reader Unit} (hc : Closes closer)

include hc

-- Behind the blanks and the comment of an item there has to be its end.
theorem closing_rejectsHere {c : Char} (h : isReread c) :
    RejectsHere (orElse (do lineBreak; trivia) closer.peek) (c :: s) := by
  have hl : Stops isLineBreak (c :: s) :=
    Stops.cons_iff.mpr (Bool.or_eq_false_iff.mp <| isWhite_of_isReread h).right
  exact .of_start (newLine_atStart.orElse hc.atStart.peek) <| by
    simp [lineBreak_rejects hl, hc.rejects h]

theorem itemEnd_rejectsHere {c : Char} (h : c.isDigit) : RejectsHere (itemEnd closer) (c :: s) := by
  have hd : isReread c := Bool.or_eq_true_iff.mpr <| .inl h
  have hb : isBlank c = false := (Bool.or_eq_false_iff.mp <| isWhite_of_isReread hd).left
  have none : NonePass Char.isDigit [' ', '\t', '/'] := rfl
  have hs : Stops continuesLine (c :: s) := Stops.cons_iff.mpr <| decide_eq_false <| none.not_mem h
  have hl : lineTail (c :: s) = .accepted () (c :: s) := by
    simp [lineTail, hb, afterComment?_stops hs]
  obtain ⟨g, hg, hr⟩ := closing_rejectsHere (s := s) hc hd
  exact ⟨g, (bind_of_accepted hl).trans hg, hr⟩

theorem forward_end {a : α} : Forward (do itemEnd closer; return a) :=
  (forward_itemEnd hc.forward).bind fun _ => .pure _

theorem items_rejectsHere (h : RejectsHere item ('/' :: s)) :
    RejectsHere (manyTill (ended item closer) closer) ('/' :: s) :=
  .manyTill (hc.rejects rfl) h.bind

end Closes

theorem itemEnd_dropWhile {closer : Reader Unit} :
    itemEnd closer s = itemEnd closer (s.dropWhile isBlank) := by
  have hl : lineTail s = lineTail (s.dropWhile isBlank) := by
    rw [lineTail, lineTail, List.dropWhile_idempotent]
  simp only [itemEnd, bind, hl]

theorem name_rejectsHere : RejectsHere name ('/' :: s) :=
  .of_start name_atStart <| by simp [name]

theorem group_rejectsHere {levels : Nat} : RejectsHere (group levels) ('/' :: s) := by
  have h : RejectsHere groupOpening ('/' :: s) := name_rejectsHere.bind
  cases levels with
  | zero   => exact RejectsHere.bind (q := fun _ => abortAt _ _) h
  | succ _ => exact h.bind

theorem declaration_rejectsHere : RejectsHere declaration ('/' :: s) :=
  .bind <| .bind name_rejectsHere

theorem item_rejectsHere {levels : Nat} :
    RejectsHere (orElse (group levels) (.declaration <$> declaration)) ('/' :: s) :=
  group_rejectsHere.orElse declaration_rejectsHere.bind

theorem topItem_rejectsHere : RejectsHere topItem ('/' :: s) := by
  refine .orElse (.orElse (.bind ?_) group_rejectsHere.bind) declaration_rejectsHere.bind
  exact .of_start variableDeclaration_atStart <| by simp [variableDeclaration]

-- What is left open, and how what comes behind settles it.

-- A comment that begins here gave up behind its slashes.
structure OfComment (f : Fault) (s : List Char) : Prop where
  slashes : s = '/' :: '/' :: f.rest
  spoiled : afterComment? s = none

-- An opacity that begins here gave up behind blanks, or behind blanks and digits.
inductive OfOpacity (f : Fault) (s : List Char) : Prop
  | blanks : s.dropWhile isBlank = f.rest → OfOpacity f s
  | digits : f.expected = [.character '%'] → Grammar.Digits (s.dropWhile isBlank) ds f.rest →
    OfOpacity f s

theorem comment_eq_rejected (h : comment s = .rejected f) : f.rest = s ∨ OfComment f s := by
  unfold comment at h
  split at h
  case h_1 => cases h
  case h_2 ha =>
    cases h
    by_cases hp : ['/', '/'] <+: s
    case neg => exact .inl <| if_neg hp
    case pos =>
      obtain ⟨t, rfl⟩ := hp
      exact .inr ⟨rfl, ha⟩

theorem shows_comment (h : comment s = .rejected f) : (Reply.accepted a s).Shows OfComment f := by
  rcases comment_eq_rejected h with h | h
  · exact .reached <| Nat.le_of_eq <| congrArg List.length h.symm
  · exact .leftOpen rfl h

theorem shows_of_comment (hf : OfComment f s) (h : ∀ {t}, RejectsHere p ('/' :: t)) :
    (p s).Shows M f := by
  obtain ⟨rfl, hs⟩ := hf
  have ⟨g, hg, hr⟩ := h (t := '/' :: f.rest)
  exact hg ▸ .overlooked rfl (.comment (hr ▸ hs) hr)

theorem percentage_eq_rejected (h : percentage s = .rejected f) :
    f.rest = s ∨ ∃ ds, Grammar.Digits s ds f.rest ∧ f.expected = [.character '%'] := by
  rcases bind_eq_rejected.mp h with h | ⟨ds, s₁, hd, h⟩
  · exact .inl <| many1_atStart s f h
  · rcases bind_eq_rejected.mp h with h | ⟨_, _, _, h⟩
    · have ⟨_, hf⟩ := character_eq_rejected.mp h
      exact .inr ⟨ds, hf ▸ digits_sound hd, hf ▸ rfl⟩
    · split at h <;> cases h

theorem digits_cons {ds : List Char} (h : Grammar.Digits s ds rest) :
    ∃ c t, s = c :: t ∧ c.isDigit := by
  obtain ⟨hn, hd⟩ := h
  obtain ⟨d, ds, rfl⟩ := List.exists_cons_of_ne_nil hn
  exact ⟨d, _, rfl, hd d List.mem_cons_self⟩

theorem shows_of_opacity (hf : OfOpacity f s) (hp : Forward p)
    (h : ∀ {c t}, c.isDigit → RejectsHere p (c :: t)) : (p (s.dropWhile isBlank)).Shows M f := by
  cases hf with
  | blanks hb     => exact .reached <| hb ▸ (hp _).suffix.length_le
  | digits he hds =>
    obtain ⟨d, t, ht, hd⟩ := digits_cons hds
    have ⟨g, hg, hr⟩ := h (t := t) hd
    rw [← ht] at hg hr
    exact hg ▸ .overlooked rfl (.percentage he <| hr ▸ hds)

theorem shows_separator {u : Reader α} {c : Char} (hc : c.isDigit = false) (hu : Forward u)
    (hf : OfOpacity f s) : ((separator c >>= fun _ => u) s).Shows M f :=
  shows_of_opacity (p := (do character c; blanks) >>= fun _ => u) hf
    (.bind (.bind .character fun _ => forward_blanks) fun _ => hu)
    fun hd => .bind <| .bind <| character_rejectsHere hd hc

theorem shows_character {u : Reader α} {c : Char} (hc : c.isDigit = false) (hu : Forward u)
    (hf : OfOpacity f s) : ((do blanks; character c; u : Reader α) s).Shows M f :=
  shows_of_opacity (p := character c >>= fun _ => u) hf (.bind .character fun _ => hu)
    fun hd => .bind <| character_rejectsHere hd hc

namespace Parts

variable {item : Reader α} {b : Parts item} {closer : Reader Unit}

theorem tells_trivia : Tells OfComment trivia := by
  have hm : Forward (Reader.many (Reader.orElse spaces comment)) := trivia_eq ▸ forward_trivia
  rintro s f ⟨t, hr, h⟩
  rw [trivia_eq]
  induction hr using Relation.ReflTransGen.head_induction_on with
  | head hr _ ih =>
    obtain ⟨_, hp, hl⟩ := hr
    exact many_of_accepted hp hl ▸ ih
  | refl =>
    rcases h with ⟨⟨⟩⟩ | h | ⟨⟨g, hs⟩, ⟨⟨⟩⟩ | h⟩
    · exact .reached <| spaces_atStart t f h ▸ (hm t).suffix.length_le
    · exact many_of_rejected (orElse_of_rejected hs h) ▸ shows_comment h

theorem tells_lineTail : Tells OfComment lineTail := by
  have h : Tells OfComment (.optional <| .whole comment) := by
    rintro s f (⟨⟨⟩⟩ | h)
    exact optional_of_rejected h ▸ shows_comment h
  exact .eq <| .after fun _ => .pure h

theorem tells_itemEnd (hc : Closes closer) : Tells OfComment (itemEnd closer) := by
  refine .bind tells_lineTail (fun _ => ?closing) (fun _ => ?forward) fun h => ?settles
  case closing =>
    exact .orElse (.after fun _ => tells_trivia) nofun (.after fun _ => .of_not_rejects fun _ => nofun)
      nofun (.of_start newLine_atStart hc.forward.peek)
  case forward => exact .orElse (forward_lineBreak.bind fun _ => forward_trivia) hc.forward.peek
  case settles => exact shows_of_comment h <| closing_rejectsHere hc rfl

theorem tells_opacity : Tells OfOpacity opacity := by
  refine .pure fun s f (h : False ∨ _) => ?_
  have h := h.resolve_left id
  rw [optional_of_rejected h]
  rcases bind_eq_rejected.mp h with h | ⟨bs, s₁, hb, h⟩
  · exact .reached <| many1_atStart s f h ▸ le_rfl
  · have ⟨_, _, hb⟩ := many1_eq_accepted.mp hb
    refine .leftOpen rfl ?_
    rcases percentage_eq_rejected h with h | ⟨ds, hd, he⟩
    · exact .blanks <| hb.trans h.symm
    · exact .digits he <| hb ▸ hd

theorem firm_opacity : Firm opacity :=
  .of_not_rejects fun _ => opacity_not_rejects

theorem tells_hexColor : Tells OfOpacity hexColor :=
  .after fun _ => .after fun _ => tells_opacity.pure

theorem firm_hexColor : Firm hexColor :=
  .after fun _ => .after fun _ => firm_opacity.pure

theorem tells_reference : Tells OfOpacity reference :=
  .after fun _ => .after fun _ => tells_opacity.pure

theorem firm_reference : Firm reference :=
  .after fun _ => .after fun _ => firm_opacity.pure

theorem firm_slot : Firm slot :=
  .orElse (.orElse firm_hexColor.map (.map .whole)) firm_reference.map

theorem tells_slot : Tells OfOpacity slot := by
  refine .orElse (.orElse tells_hexColor.map (.map .whole) firm_hexColor.map (.map .whole) ?_)
    tells_reference.map (.orElse firm_hexColor.map (.map .whole)) firm_reference.map ?_
  · exact .of_start hexColor_atStart.map forward_channelColor.map
  · exact .of_start (hexColor_atStart.map.orElse channelColor_atStart.map) forward_reference.map

theorem tells_labelled (h : Tells L b) : Tells L b.labelled :=
  .after fun _ => .after fun _ => .pure h.commit

theorem tells_labelledSlots : Tells Nothing labelledSlots := by
  have closing (a b : String × Slot) : Forward (do blanks; character ')'; return (a, b)) :=
    forward_blanks.bind fun _ => .bind .character fun _ => .pure _
  have second (a : String × Slot) := (forward_labelled forward_slot).bind (closing a)
  refine .bind (tells_labelled tells_slot) (fun a => .after fun _ => ?_)
    (fun a => forward_separator.bind fun _ => second a) fun h => shows_separator rfl (second _) h
  exact .bind (tells_labelled tells_slot) (fun _ => .whole) (closing a) fun h =>
    shows_character rfl (.pure _) h

theorem tells_pair : Tells Nothing pair := by
  refine .after fun _ => .commit <| .after fun _ =>
    .refine tells_labelledSlots fun {_ a _ _} hp h f => ?_
  obtain ⟨first, second⟩ := a
  simp only [pairOfLabels] at h
  split at h
  · cases h
  · split at h <;> cases h
    exact .labels hp rfl

theorem firm_pair : Firm pair :=
  .after fun _ => .commit

theorem tells_value : Tells OfOpacity value :=
  .orElse tells_slot.map tells_pair.of_nothing firm_slot.map firm_pair
    (.of_start slot_atStart.map forward_pair)

theorem tells_declaration : Tells OfOpacity declaration :=
  (tells_labelled tells_value).pure

theorem firm_declaration : Firm declaration :=
  .pure <| .after fun _ => .after fun _ => .pure .commit

theorem tells_variableDeclaration : Tells OfOpacity variableDeclaration :=
  .after fun _ => .commit <| .after fun _ => .after fun _ => tells_value.pure

theorem firm_variableDeclaration : Firm variableDeclaration :=
  .after fun _ => .commit

theorem tells_ended (hc : Closes closer) (hb : Tells OfOpacity b) :
    Tells OfComment (b.ended closer) := by
  refine .bind hb (fun _ => .pure <| tells_itemEnd hc) (fun _ => forward_end hc) fun {a f s} h => ?_
  have hs : (do Reader.itemEnd closer; return a : Reader α) s =
      (do Reader.itemEnd closer; return a : Reader α) (s.dropWhile isBlank) := by
    simp only [Bind.bind]
    rw [itemEnd_dropWhile]
  exact hs ▸ shows_of_opacity h (forward_end hc) fun hd => (itemEnd_rejectsHere hc hd).bind

theorem tells_items (hc : Closes closer) (hb : Tells OfOpacity b) (hi : Forward item)
    (consumes : ∀ {s a rest}, item s = .accepted a rest → rest.length < s.length)
    (hr : ∀ {s}, RejectsHere item ('/' :: s)) :
    Tells Nothing (.manyTill (b.ended closer) (.whole closer)) := by
  have forward : Forward (Reader.ended item closer) := hi.bind fun _ => forward_end hc
  refine .manyTill (tells_ended hc hb) forward hc.forward ?consumes hc.atStart fun h => ?settles
  case settles => exact shows_of_comment h <| items_rejectsHere hc hr
  case consumes =>
    intro s a rest h
    have ⟨_, _, hi, he⟩ := bind_eq_accepted.mp h
    exact ((forward_end hc).accepted he).length_le.trans_lt <| consumes hi

theorem firm_group (levels : Nat) : Firm (group levels) := by
  cases levels with
  | zero        => exact .whole
  | succ levels => exact .after fun _ => .pure .commit

-- By induction on the levels. Every level reads its items with the level below.
theorem tells_group (levels : Nat) : Tells Nothing (group levels) := by
  induction levels with
  | zero => exact .whole
  | succ levels ih =>
    have item : Tells OfOpacity (.orElse (group levels) (declaration.map (f := Item.declaration))) :=
      .orElse ih.of_nothing tells_declaration.map (firm_group levels) firm_declaration.map
        (group_sooner levels).map_right
    have hf := forward_item levels
    refine .after fun _ => .pure <| .commit <| .bind tells_trivia (fun _ => ?items)
      (fun _ => forward_items hf) fun h => ?settles
    case items   => exact tells_items closes_brace item hf item_consumes item_rejectsHere
    case settles => exact shows_of_comment h <| items_rejectsHere closes_brace item_rejectsHere

theorem tells_topItem : Tells OfOpacity topItem := by
  have group := tells_group maxNesting
  have firm := firm_group maxNesting
  refine .orElse (.orElse tells_variableDeclaration.map group.of_nothing.map ?_ firm.map ?_)
    tells_declaration.map (.orElse ?_ firm.map) firm_declaration.map (.orElse ?_ ?_)
  · exact firm_variableDeclaration.map
  · exact .of_start variableDeclaration_atStart.map (forward_group _).map
  · exact firm_variableDeclaration.map
  · exact .of_start variableDeclaration_atStart.map forward_declaration.map
  · exact (group_sooner _).map_left.map_right

theorem tells_sheet : Tells Nothing sheet := by
  have hc := closes_endOfInput
  have items : Tells Nothing (.manyTill (topItem.ended endOfInput) (.whole endOfInput)) :=
    tells_items hc tells_topItem forward_topItem topItem_consumes topItem_rejectsHere
  have forward : Forward (Reader.ended Reader.topItem endOfInput) :=
    forward_topItem.bind fun _ => forward_end hc
  refine .bind tells_trivia (fun _ => items.pure)
    (fun _ => .bind (.manyTill forward .endOfInput) fun _ => .pure _) fun h => ?settles
  case settles => exact shows_of_comment h (items_rejectsHere hc topItem_rejectsHere).bind

end Parts

end Reader

namespace ParseError

theorem offset_atRest_le {source rest rest' : List Char} {expected expected' : List Expectation}
    (h : rest.length ≤ rest'.length) :
    (atRest source rest' expected').location.offset ≤
      (atRest source rest expected).location.offset := by
  have hp : source.take (source.length - rest'.length) <+:
      source.take (source.length - rest.length) :=
    List.take_prefix_take_left <| Nat.sub_le_sub_left h _
  obtain ⟨t, ht⟩ := hp
  simp only [atRest]
  rw [← ht, Location.offset_after_append]
  exact Nat.le_add_right ..

end ParseError

-- An opacity that misses its percent sign, or a comment that a lone carriage return spoils.
inductive Fault.Swallowed (source : List Char) (f : Fault) : Prop
  | percentage : f.expected = [.character '%'] → Swallowed source f
  | comment    : '/' :: '/' :: f.rest <:+ source →
    Reader.afterComment? ('/' :: '/' :: f.rest) = none → Swallowed source f

namespace Grammar

open Reader

-- Where an item should begin and one goes wrong for good, the sheet goes wrong as the item does.
theorem sheet_aborted {s start : List Char} {f : Fault} (ht : skipTrivia s = start)
    (hs : start ≠ []) (hi : topItem start = .aborted f) : sheet s = .aborted f := by
  have ht : trivia s = .accepted () start := congrArg _ ht
  exact (bind_of_accepted ht).trans <| bind_of_aborted <|
    manyTill_of_aborted (endOfInput_rejects.mpr hs) <| bind_of_aborted hi

end Grammar

namespace Sheet

variable {source : String} {e : ParseError} {f : Fault}

theorem exists_fault_of_parse (h : parse source = .error e) :
    ∃ g, (Reader.sheet source.toList).fault? = some g ∧
      e = .atRest source.toList g.rest g.expected := by
  unfold parse parseChars at h
  cases hs : Reader.sheet source.toList <;> rw [hs] at h <;> cases h
  all_goals exact ⟨_, rfl, rfl⟩

-- An item that goes wrong is what is wrong with a sheet that begins with it.
theorem parse_of_topItem {start : List Char} (ht : Reader.skipTrivia source.toList = start)
    (hs : start ≠ []) (hi : (Reader.topItem start).fault? = some f) :
    parse source = .error (.atRest source.toList f.rest f.expected) := by
  unfold parse parseChars
  cases h : Reader.topItem start <;> rw [h] at hi <;> cases hi
  case rejected => rw [Grammar.sheet_rejected ht hs h]
  case aborted  => rw [Grammar.sheet_aborted ht hs h]

-- What is reported is as far on as every alternative and every optional part that gave up. Wrong
-- labels of a pair are reported where the first of them stands, however far the pair was read.
theorem parse_furthest (h : parse source = .error e)
    (hf : Reader.Parts.sheet.GaveUp source.toList f) (hs : ¬f.Swallowed source.toList) :
    (ParseError.atRest source.toList f.rest f.expected).location.offset ≤ e.location.offset ∨
      ∃ labels first second rest, labels <:+ source.toList ∧
        Reader.labelledSlots labels = .accepted (first, second) rest ∧
        e = .atRest source.toList labels [.lightAndDark first.1 second.1] := by
  obtain ⟨g, hg, rfl⟩ := exists_fault_of_parse h
  have hr := Reply.rest_of_fault hg
  have hw : g.rest <:+ source.toList := hr ▸ (Reader.forward_sheet source.toList).suffix
  cases Reader.Parts.tells_sheet _ f hf with
  | reached h => exact .inl <| ParseError.offset_atRest_le <| hr ▸ h
  | leftOpen _ h => cases h
  | overlooked hg' h =>
    cases hg.symm.trans hg'
    cases h with
    | labels hl he    => exact .inr ⟨_, _, _, _, hw, hl, he ▸ rfl⟩
    | percentage he _ => exact absurd (.percentage he) hs
    | comment hc hr   => exact absurd (.comment (hr ▸ hw) (hr ▸ hc)) hs

-- Behind the name there is no brace for a group, and no colon for a declaration.
theorem parse_furthest_names :
    ∃ e, parse "a b" = .error e ∧
      (ParseError.atRest "a b".toList ['b'] [.character '\x7b']).location.offset ≤
        e.location.offset := by
  have ht : Reader.skipTrivia ['a', ' ', 'b'] = ['a', ' ', 'b'] :=
    Reader.skipTrivia_stops <| Reader.Stops.cons_iff.mpr rfl
  have hs : Reader.sheet ['a', ' ', 'b'] = .rejected ⟨['b'], [.character '\x7b', .character ':']⟩ :=
    Grammar.sheet_rejected ht nofun rfl
  have he : parse "a b" =
      .error (.atRest "a b".toList ['b'] [.character '\x7b', .character ':']) := by
    simp only [parse, parseChars, String.reduceToList, hs]
  have hg : (Reader.Parts.topItem.ended Reader.endOfInput).GaveUp ['a', ' ', 'b']
      ⟨['b'], [.character '\x7b']⟩ := .first <| .left <| .second ⟨_, rfl⟩ rfl
  have hf : Reader.Parts.sheet.GaveUp "a b".toList ⟨['b'], [.character '\x7b']⟩ :=
    .behind (congrArg (Reply.accepted ()) ht) <| .first <| .item .refl ⟨_, rfl⟩ hg
  refine ⟨_, he, (parse_furthest he hf ?_).resolve_right ?_⟩
  · rintro (h | ⟨h, -⟩)
    · simp at h
    · exact absurd h (by decide)
  · rintro ⟨_, _, _, _, -, -, h⟩
    cases congrArg ParseError.expected h

-- The labels are not those of a pair. The first of them is reported, and an opacity was looked for
-- in vain as far as behind the color that is labelled by it.
theorem parse_labels_not_furthest :
    parse "a: (foo: #000000, bar: #ffffff)" =
        .error ⟨⟨4, 1, 5⟩, [.lightAndDark "foo" "bar"], .lineStart "foo: #000000, ba".toList⟩ ∧
      Reader.Parts.sheet.GaveUp "a: (foo: #000000, bar: #ffffff)".toList
        ⟨", bar: #ffffff)".toList, []⟩ ∧
      (ParseError.atRest "a: (foo: #000000, bar: #ffffff)".toList ", bar: #ffffff)".toList
        []).location.offset = 16 := by
  have ht : Reader.skipTrivia "a: (foo: #000000, bar: #ffffff)".toList =
      "a: (foo: #000000, bar: #ffffff)".toList :=
    Reader.skipTrivia_stops <| Reader.Stops.cons_iff.mpr rfl
  have hs : Reader.sheet "a: (foo: #000000, bar: #ffffff)".toList =
      .aborted ⟨"foo: #000000, bar: #ffffff)".toList, [.lightAndDark "foo" "bar"]⟩ :=
    Grammar.sheet_aborted ht nofun rfl
  have hg : Reader.Parts.labelledSlots.GaveUp "foo: #000000, bar: #ffffff)".toList
      ⟨", bar: #ffffff)".toList, []⟩ :=
    .first <| .behind rfl <| .behind rfl <| .first <| .left <| .left <| .first <| .behind rfl <|
      .behind rfl <| .first <| .first <| .optional rfl
  have hv : Reader.Parts.value.GaveUp "(foo: #000000, bar: #ffffff)".toList
      ⟨", bar: #ffffff)".toList, []⟩ :=
    .right ⟨_, rfl⟩ <| .behind rfl <| .behind rfl hg
  have hi : (Reader.Parts.topItem.ended Reader.endOfInput).GaveUp
      "a: (foo: #000000, bar: #ffffff)".toList ⟨", bar: #ffffff)".toList, []⟩ :=
    .first <| .right ⟨_, rfl⟩ <| .first <| .first <| .behind rfl <| .behind rfl <| .first hv
  refine ⟨?_, ?_, rfl⟩
  · rw [parse, parseChars, hs]
    rfl
  · exact .behind (congrArg (Reply.accepted ()) ht) <| .first <| .item .refl ⟨_, rfl⟩ hi

end Sheet

end Palette
