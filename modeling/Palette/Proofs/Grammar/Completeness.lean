import Palette.Proofs.Grammar.Soundness

-- Whatever the grammar derives, a reader accepts, and it leaves the same text behind: readers go on
-- for as long as they can, and what follows a construct in a derivation lets them go no further.

namespace Palette.Reader

open Grammar

variable {s rest : List Char} {u : Unit}

-- The first character, if there is one, is none of those that pass a test.
def Stops (test : Char → Bool) (s : List Char) : Prop :=
  ∀ c ∈ s.head?, test c = false

namespace Stops

variable {test : Char → Bool} {cs : List Char}

@[simp]
theorem nil : Stops test [] :=
  nofun

@[simp]
theorem cons_iff {c : Char} : Stops test (c :: s) ↔ test c = false := by
  simp [Stops]

theorem takeWhile_eq_nil (h : Stops test s) : s.takeWhile test = [] := by
  cases s
  case nil       => rfl
  case cons c s  => simp [cons_iff.mp h]

theorem of_takeWhile_eq_nil (h : s.takeWhile test = []) : Stops test s := by
  cases s
  case nil       => exact nil
  case cons c s  => exact cons_iff.mpr <| by simpa using h

theorem of_dropWhile_eq (h : s.dropWhile test = rest) : Stops test rest := by
  subst h
  intro c hc
  simpa [Option.mem_def.mp hc] using List.head?_dropWhile_not test s

theorem dropWhile_eq (h : Stops test s) : s.dropWhile test = s :=
  dropWhile_of_takeWhile_eq_nil h.takeWhile_eq_nil

theorem takeWhile_append (h : Stops test s) (hc : ∀ c ∈ cs, test c) :
    (cs ++ s).takeWhile test = cs := by
  rw [List.takeWhile_append_of_pos hc, h.takeWhile_eq_nil, List.append_nil]

theorem dropWhile_append (h : Stops test s) (hc : ∀ c ∈ cs, test c) :
    (cs ++ s).dropWhile test = s := by
  rw [List.dropWhile_append_of_pos hc, h.dropWhile_eq]

theorem imp {test' : Char → Bool} (h : Stops test' s) (hi : ∀ c, test c → test' c) :
    Stops test s := by
  intro c hc
  have := h c hc
  by_contra ht
  simp [hi c (by simpa using ht)] at this

end Stops

theorem many1_complete {test : Char → Bool} {expected : List Expectation} {cs : List Char}
    (hn : cs ≠ []) (hc : ∀ c ∈ cs, test c) (hs : Stops test rest) :
    many1 test expected (cs ++ rest) = .accepted cs rest :=
  many1_eq_accepted.mpr ⟨hn, hs.takeWhile_append hc, hs.dropWhile_append hc⟩

theorem blanks_complete (h : Blanks s rest) (hs : Stops isBlank rest) :
    s.dropWhile isBlank = rest := by
  induction h
  case nil         => exact hs.dropWhile_eq
  case space _ ih  => exact ih hs
  case tab _ ih    => exact ih hs

theorem afterComment?_of_comment (h : Comment s rest) : afterComment? s = some rest := by
  have all {text} (hn : NoLineBreak text) : ∀ c ∈ text, !isLineBreak c := by
    intro c hc
    simpa [isLineBreak] using hn c hc
  cases h
  case last text hn =>
    simp [afterComment?, List.dropWhile_eq_nil_iff.mpr (all hn)]
  case line text behind hn hb =>
    have hs : Stops (!isLineBreak ·) rest := by cases hb <;> simp [isLineBreak]
    rw [afterComment?, hs.dropWhile_append (all hn)]
    cases hb <;> rfl

-- None of a few characters passes a test. This is checked by evaluating the test.
def NonePass (test : Char → Bool) (cs : List Char) : Prop :=
  cs.all (!test ·)

theorem NonePass.of_mem {test : Char → Bool} {c : Char} {cs : List Char} (h : NonePass test cs)
    (hc : c ∈ cs) : test c = false := by
  simpa using List.all_eq_true.mp h c hc

theorem NonePass.not_mem {test : Char → Bool} {c : Char} {cs : List Char} (h : NonePass test cs)
    (hc : test c) : c ∉ cs :=
  fun hm => Bool.false_ne_true <| (h.of_mem hm).symm.trans hc

-- The first character, if there is one, is one of a few.
def StartsIn (cs s : List Char) : Prop :=
  ∀ c ∈ s.head?, c ∈ cs

theorem StartsIn.stops {test : Char → Bool} {cs : List Char} (h : StartsIn cs s)
    (hc : NonePass test cs) : Stops test s :=
  fun c hs => hc.of_mem (h c hs)

-- What may come behind a value, with blanks before it.
def endsValue : List Char :=
  ['/', '\r', '\n', '}', ',', ')']

def Ends (s : List Char) : Prop :=
  ∃ s₁, Blanks s s₁ ∧ StartsIn endsValue s₁

theorem Ends.of_blanks {c : Char} (h : Blanks s (c :: rest)) (hc : c ∈ endsValue) : Ends s :=
  ⟨_, h, by simpa [StartsIn] using hc⟩

theorem Ends.stops (h : Ends s) {test : Char → Bool}
    (ht : NonePass test ([' ', '\t'] ++ endsValue)) : Stops test s := by
  have ⟨s₁, hb, hs⟩ := h
  cases hb
  case nil => exact fun c hc => ht.of_mem <| List.mem_append_right _ <| hs c hc
  all_goals exact Stops.cons_iff.mpr <| ht.of_mem (by simp)

theorem Ends.of_itemEnd {Closes : List Char → Prop} (hc : ∀ {s}, Closes s → StartsIn ['}'] s)
    (h : ItemEnd Closes s rest) : Ends s := by
  cases h
  case line s₁ s₂ s₃ hb ht hl hr =>
    refine ⟨s₁, hb, ?_⟩
    rcases ht with rfl | ht
    · cases hl <;> simp [StartsIn, endsValue]
    · cases ht <;> simp [StartsIn, endsValue]
  case last s₁ hb ht hr =>
    refine ⟨s₁, hb, ?_⟩
    rcases ht with rfl | ht
    · intro c hs
      have := hc hr c hs
      simp_all [endsValue]
    · cases ht <;> simp [StartsIn, endsValue]

-- What trivia can begin with.
def startsTrivia (c : Char) : Bool :=
  c ∈ [' ', '\t', '\r', '\n', '/']

theorem startsTrivia_of_isBlank (c : Char) (h : isBlank c) : startsTrivia c := by
  rcases isBlank_iff.mp h with _ | ⟨_, _ | ⟨_, ⟨⟩⟩⟩ <;> rfl

theorem Stops.isBlank (h : Stops startsTrivia s) : Stops isBlank s :=
  h.imp startsTrivia_of_isBlank

theorem not_startsTrivia {test : Char → Bool} {c : Char} (hc : test c)
    (ht : NonePass test [' ', '\t', '\r', '\n', '/']) : startsTrivia c = false :=
  decide_eq_false <| ht.not_mem hc

theorem Stops.of_append {test test' : Char → Bool} {cs : List Char} (hn : cs ≠ [])
    (hc : ∀ c ∈ cs, test c) (ht : ∀ c, test c → test' c = false) : Stops test' (cs ++ s) := by
  cases cs
  case nil       => contradiction
  case cons c cs => exact Stops.cons_iff.mpr <| ht c <| hc c List.mem_cons_self

theorem name_starts {n : String} (h : Name s n rest) : Stops startsTrivia s := by
  cases h
  case intro hn hc =>
    exact .of_append hn hc fun c h => not_startsTrivia h rfl

theorem digits_starts {ds : List Char} (h : Digits s ds rest) : Stops startsTrivia s := by
  cases h
  case intro hn hd =>
    exact .of_append hn hd fun c h => not_startsTrivia h rfl

theorem name_complete {n : String} (h : Name s n rest) (hs : Stops Char.isAlphanum rest) :
    name s = .accepted n rest := by
  cases h
  case intro hn hc => simp [name, many1_complete hn hc hs]

theorem digits_complete {ds : List Char} (h : Digits s ds rest) (hs : Stops Char.isDigit rest) :
    digits s = .accepted ds rest := by
  cases h
  case intro hn hd => exact many1_complete hn hd hs

theorem separator_complete {c : Char} (hc : isBlank c = false) (h : Separator c s rest)
    (hs : Stops isBlank rest) : separator c s = .accepted () rest := by
  cases h
  case intro s₁ hb hb' =>
    simp [separator, blanks_complete hb (by simpa using hc), blanks_complete hb' hs]

theorem hexDigit_complete {c : Char} {n : Nat} (h : HexDigit c n) :
    isHexDigit c ∧ hexValue c = n := by
  have all : ∀ n < 16, (isHexDigit (Nat.digitChar n) ∧ hexValue (Nat.digitChar n) = n) ∧
      isHexDigit (Nat.digitChar n).toUpper ∧ hexValue (Nat.digitChar n).toUpper = n := by
    decide
  rcases h with ⟨hn, rfl | rfl⟩
  · exact (all n hn).left
  · exact (all n hn).right

theorem hexPair_complete {x : UInt8} (h : HexByte s x rest) : hexPair s = .accepted x rest := by
  cases h
  case intro ha hb =>
    have ⟨ha, hm⟩ := hexDigit_complete ha
    have ⟨hb, hn⟩ := hexDigit_complete hb
    simp [hexPair, ha, hb, hm, hn]

theorem percentage_complete {ds : List Char} (h : Digits s ds ('%' :: rest))
    (hl : decimal ds ≤ 100) :
    percentage s = .accepted (.ofRatio false (decimal ds) 100) rest := by
  have hd := digits_complete h (by simp)
  rw [← decimalValue_eq] at hl ⊢
  simp only [percentage, fromStart_apply, bind_eq_accepted, character_eq_accepted]
  exact ⟨ds, _, hd, (), rest, rfl, by simp [hl]⟩

theorem opacity_complete {x : Binary32} (h : Opacity s x rest) (he : Ends rest) :
    opacity s = .accepted x rest := by
  simp only [opacity, bind_eq_accepted, optional_eq_accepted, pure_eq_accepted]
  cases h
  case percent hb hs hl hd =>
    replace hb := isBlank_iff.mpr hb
    have hs := blanks_complete hs (digits_starts hd).isBlank
    have hm := (List.dropWhile_cons_of_pos hb).trans hs
    refine ⟨_, rest, .inl ⟨_, ⟨_, _, many1_eq_accepted.mpr ⟨?ne, rfl, hm⟩,
      percentage_complete hd hl⟩, rfl⟩, Option.getD_some, rfl⟩
    case ne => simp [hb]
  case full =>
    refine ⟨none, s, .inr ⟨?_, rfl, rfl⟩, Option.getD_none, rfl⟩
    obtain ⟨s₁, hb, hs⟩ := he
    have hs₁ := blanks_complete hb <| hs.stops (by rfl)
    have hd : Stops Char.isDigit s₁ := hs.stops rfl
    replace hd := hd.takeWhile_eq_nil
    simp only [bind_rejects, many1_rejects, many1_eq_accepted]
    by_cases hn : s.takeWhile isBlank = []
    case pos => exact .inl hn
    case neg => exact .inr ⟨_, _, ⟨hn, rfl, hs₁⟩, by simp [percentage, digits, hd]⟩

theorem hexColor_complete {c : Color} (h : HexColor s c rest) (he : Ends rest) :
    hexColor s = .accepted c rest := by
  cases h
  case intro hr hg hb ha =>
    simp [hexColor, hexPair_complete hr, hexPair_complete hg, hexPair_complete hb,
      opacity_complete ha he]

theorem channel_complete {x : UInt8} (h : Channel s x rest) (hs : Stops Char.isDigit rest) :
    channel s = .accepted x rest := by
  cases h
  case intro hl hd =>
    simp only [channel, refine_eq_accepted]
    exact ⟨_, digits_complete hd hs, by simp [decimalValue_eq, hl]⟩

def isSign (c : Char) : Bool :=
  c ∈ ['+', '-']

theorem sign_complete {b : Bool} (h : Sign s b rest) (hs : Stops isSign rest) :
    Numeral.splitSign s = (b, rest) := by
  cases h
  case plus  => rfl
  case minus => rfl
  case none  =>
    unfold Numeral.splitSign
    split
    · simp [isSign] at hs
    · simp [isSign] at hs
    · rfl

def continuesMantissa (c : Char) : Bool :=
  c.isDigit || c == '.'

theorem mantissa_complete {ds fs : List Char} (h : Mantissa s (ds, fs) rest)
    (hs : Stops continuesMantissa rest) :
    s.takeWhile Char.isDigit = ds ∧
      Numeral.splitFraction (s.dropWhile Char.isDigit) = (fs, rest) := by
  have hd : Stops Char.isDigit rest := hs.imp fun c h => by simp [continuesMantissa, h]
  have hp : Stops Char.isDigit ('.' :: rest) := by simp
  cases h
  case whole h =>
    cases h
    case intro hn h =>
      rw [hd.takeWhile_append h, hd.dropWhile_append h]
      refine ⟨rfl, ?_⟩
      unfold Numeral.splitFraction
      split
      · simp [continuesMantissa] at hs
      · rfl
  case point h =>
    cases h
    case intro hn h =>
      rw [hp.takeWhile_append h, hp.dropWhile_append h]
      simp [Numeral.splitFraction, Numeral.splitDigits, hd.takeWhile_eq_nil, hd.dropWhile_eq]
  case both s₁ h h' =>
    replace hp : Stops Char.isDigit ('.' :: s₁) := by simp
    cases h
    cases h'
    case intro.intro hn h hn' h' =>
      rw [hp.takeWhile_append h, hp.dropWhile_append h]
      simp [Numeral.splitFraction, Numeral.splitDigits, hd.takeWhile_append h',
        hd.dropWhile_append h']
  case fraction h =>
    cases h
    case intro hn h =>
      simp [Numeral.splitFraction, Numeral.splitDigits, hd.takeWhile_append h,
        hd.dropWhile_append h]

theorem digits_not_sign {ds : List Char} (h : Digits s ds rest) : Stops isSign s := by
  cases h
  case intro hn hd =>
    refine .of_append hn hd fun c hc => ?_
    have signs : NonePass Char.isDigit ['+', '-'] := rfl
    rw [isSign, decide_eq_false_iff_not]
    intro h
    simp [signs.of_mem h] at hc

theorem mantissa_not_sign {m : List Char × List Char} (h : Mantissa s m rest) :
    Stops isSign s := by
  cases h
  case fraction => simp [isSign]
  all_goals exact digits_not_sign ‹_›

def endsNumeral : List Char :=
  [' ', '\t', ')']

theorem exponent_complete {e : Int} (h : Exponent s e rest) (hs : StartsIn endsNumeral rest) :
    Numeral.splitExponent? s = some (e, rest) := by
  cases h
  case none =>
    cases s
    case nil      => rfl
    case cons c s =>
      have hc : Stops (fun c => c == 'e' || c == 'E') (c :: s) := hs.stops rfl
      simp [Numeral.splitExponent?, Stops.cons_iff.mp hc]
  case mark hc hs' hd =>
    rw [Numeral.splitExponent?, if_pos (by simpa using hc), sign_complete hs' (digits_not_sign hd)]
    cases hd
    case intro hn hd =>
      have hr : Stops Char.isDigit rest := hs.stops rfl
      simp [Numeral.splitDigits, hr.takeWhile_append hd, hr.dropWhile_append hd, hn,
        decimalValue_eq]

theorem exponent_starts {e : Int} (h : Exponent s e rest) (hs : StartsIn endsNumeral rest) :
    Stops continuesMantissa s := by
  cases h
  case none => exact hs.stops rfl
  case mark hc _ _ =>
    have marks : NonePass continuesMantissa ['e', 'E'] := rfl
    exact Stops.cons_iff.mpr <| marks.of_mem hc

theorem mantissa_ne_nil {m : List Char × List Char} (h : Mantissa s m rest) :
    m.1 ≠ [] ∨ m.2 ≠ [] := by
  cases h
  case fraction h => cases h; exact .inr ‹_›
  case whole h    => cases h; exact .inl ‹_›
  case point h    => cases h; exact .inl ‹_›
  case both h _   => cases h; exact .inl ‹_›

theorem numeral_complete {n : Palette.Numeral} (h : Grammar.Numeral s n rest)
    (hs : StartsIn endsNumeral rest) : numeral s = .accepted n rest := by
  suffices hn : Numeral.split? s = some (n, rest) by simp [numeral, hn]
  rcases h with ⟨hg, hm, he⟩ | ⟨ha, hb, hc⟩ | ⟨ha, hb, hc⟩
  case decimal =>
    have ⟨hd, hf⟩ := mantissa_complete hm (exponent_starts he hs)
    have hn := not_and_or.mpr <| mantissa_ne_nil hm
    simp only [Numeral.split?, Numeral.splitDecimal?, sign_complete hg (mantissa_not_sign hm),
      Numeral.splitDigits, hd, hf, exponent_complete he hs, decimalValue_eq]
    simp [hn]
  case infinity =>
    simp only [List.mem_cons, List.not_mem_nil, or_false] at ha hb hc
    rcases ha with rfl | rfl <;> rcases hb with rfl | rfl <;> rcases hc with rfl | rfl <;> rfl
  case nan =>
    simp only [List.mem_cons, List.not_mem_nil, or_false] at ha hb hc
    rcases ha with rfl | rfl <;> rcases hb with rfl | rfl <;> rcases hc with rfl | rfl <;> rfl

theorem alpha_complete {x : Binary32} (h : Alpha s x rest) (hs : StartsIn endsNumeral rest) :
    alpha s = .accepted x rest := by
  obtain ⟨hn, hu⟩ := h
  simp only [alpha, fromStart_apply, bind_eq_accepted]
  exact ⟨_, rest, numeral_complete hn hs, by simp [hu]⟩

theorem mantissa_starts {m : List Char × List Char} (h : Mantissa s m rest) :
    Stops startsTrivia s := by
  cases h
  case fraction => simp [startsTrivia]
  all_goals exact digits_starts ‹_›

theorem alpha_starts {x : Binary32} (h : Alpha s x rest) : Stops startsTrivia s := by
  have letters : NonePass startsTrivia ['i', 'I', 'n', 'N'] := rfl
  obtain ⟨⟨hg, hm, _⟩ | ⟨ha, _, _⟩ | ⟨ha, _, _⟩, _⟩ := h
  case decimal =>
    cases hg
    case none => exact mantissa_starts hm
    all_goals simp [startsTrivia]
  case infinity => exact Stops.cons_iff.mpr <| letters.of_mem (by simp_all; tauto)
  case nan      => exact Stops.cons_iff.mpr <| letters.of_mem (by simp_all)

theorem StartsIn.of_blanks {c : Char} {cs : List Char} (h : Blanks s (c :: rest)) (hc : c ∈ cs)
    (hb : ∀ c ∈ [' ', '\t'], c ∈ cs) : StartsIn cs s := by
  cases h
  case nil   => simpa [StartsIn] using hc
  case space => simpa [StartsIn] using hb ' ' (by simp)
  case tab   => simpa [StartsIn] using hb '\t' (by simp)

theorem separator_stops_digits {c : Char} (h : Separator c s rest) (hc : c.isDigit = false) :
    Stops Char.isDigit s := by
  cases h
  case intro h _ =>
    have hs : StartsIn [' ', '\t', c] s := .of_blanks h (by simp) (by simp)
    exact hs.stops (by simp [NonePass, hc])

theorem channel_starts {x : UInt8} (h : Channel s x rest) : Stops startsTrivia s := by
  obtain ⟨hd, _⟩ := h
  exact digits_starts hd

theorem channelColor_complete {c : Color} (h : ChannelColor s c rest) :
    channelColor s = .accepted c rest := by
  obtain ⟨hb, hr, h₁, hg, h₂, hb', h₃, ha, hb''⟩ := h
  have hs := blanks_complete hb (channel_starts hr).isBlank
  have hr := channel_complete hr (separator_stops_digits h₁ rfl)
  have h₁ := separator_complete rfl h₁ (channel_starts hg).isBlank
  have hg := channel_complete hg (separator_stops_digits h₂ rfl)
  have h₂ := separator_complete rfl h₂ (channel_starts hb').isBlank
  have hb' := channel_complete hb' (separator_stops_digits h₃ rfl)
  have h₃ := separator_complete rfl h₃ (alpha_starts ha).isBlank
  have ha := alpha_complete ha (.of_blanks hb'' (by simp [endsNumeral]) (by simp [endsNumeral]))
  have hb'' := blanks_complete hb'' (by simp [isBlank])
  simp [channelColor, channelsOpening_eq_accepted, hs, hr, h₁, hg, h₂, hb', h₃, ha, hb'']

theorem opacity_stops_alphanum {x : Binary32} (h : Opacity s x rest) (he : Ends rest) :
    Stops Char.isAlphanum s := by
  cases h
  case full => exact he.stops rfl
  case percent hb _ _ _ =>
    have blanks : NonePass Char.isAlphanum [' ', '\t'] := rfl
    exact Stops.cons_iff.mpr <| blanks.of_mem hb

theorem reference_complete {r : Palette.Reference} (h : Grammar.Reference s r rest)
    (he : Ends rest) : reference s = .accepted r rest := by
  obtain ⟨hn, ho⟩ := h
  have hn := name_complete hn (opacity_stops_alphanum ho he)
  simp [reference, hn, opacity_complete ho he]

theorem hexColor_rejects (h : s.head? ≠ some '#') : Rejects hexColor s := by
  simp [hexColor, h]

theorem channelColor_rejects (h : s.head? ≠ some 'r') : Rejects channelColor s := by
  simp only [channelColor, bind_rejects]
  apply Or.inl
  unfold Rejects channelsOpening
  split <;> simp_all

theorem reference_rejects (h : s.head? ≠ some '$') : Rejects reference s := by
  simp [reference, h]

theorem slot_complete {c : Palette.Slot} (h : Grammar.Slot s c rest) (he : Ends rest) :
    slot s = .accepted c rest := by
  simp only [slot, orElse_eq_accepted, map_eq_accepted, orElse_rejects, map_rejects]
  rcases h with h | h | h
  case hexColor => exact .inl <| .inl ⟨_, hexColor_complete h he, rfl⟩
  case channelColor =>
    refine .inl <| .inr ⟨?_, _, channelColor_complete h, rfl⟩
    cases h
    exact hexColor_rejects (by simp)
  case reference =>
    refine .inr ⟨⟨?_, ?_⟩, _, reference_complete h he, rfl⟩ <;> cases h
    · exact hexColor_rejects (by simp)
    · exact channelColor_rejects (by simp)

theorem slot_starts {c : Palette.Slot} (h : Grammar.Slot s c rest) : Stops isBlank s := by
  rcases h with h | h | h <;> cases h <;> simp [isBlank]

theorem separator_stops_alphanum {c : Char} (h : Separator c s rest)
    (hc : c.isAlphanum = false) : Stops Char.isAlphanum s := by
  obtain ⟨h, _⟩ := h
  have hs : StartsIn [' ', '\t', c] s := .of_blanks h (by simp) (by simp)
  exact hs.stops (by simp [NonePass, hc])

theorem labelled_complete {p : Reader α} {a : α} {n : String} {s₁ s₂ : List Char}
    (hn : Name s n s₁) (hs : Separator ':' s₁ s₂) (hb : Stops isBlank s₂)
    (ha : p s₂ = .accepted a rest) : labelled p s = .accepted (n, a) rest :=
  labelled_eq_accepted.mpr ⟨s₁, (), s₂, name_complete hn (separator_stops_alphanum hs rfl),
    separator_complete rfl hs hb, ha⟩

theorem labelledSlot_complete {label : String} {c : Palette.Slot} (h : Labelled label s c rest)
    (he : Ends rest) : labelled slot s = .accepted (label, c) rest := by
  obtain ⟨hn, hs, hc⟩ := h
  exact labelled_complete hn hs (slot_starts hc) (slot_complete hc he)

theorem labelled_starts {label : String} {c : Palette.Slot} (h : Labelled label s c rest) :
    Stops isBlank s := by
  obtain ⟨hn, _, _⟩ := h
  exact (name_starts hn).isBlank

theorem separator_ends (h : Separator ',' s rest) : Ends s := by
  obtain ⟨h, _⟩ := h
  exact .of_blanks h (by simp [endsValue])

theorem labelledSlots_complete {first second : String} {a b : Palette.Slot}
    {s₁ s₂ s₃ : List Char} (ha : Labelled first s a s₁) (hs : Separator ',' s₁ s₂)
    (hb : Labelled second s₂ b s₃) (hc : Blanks s₃ (')' :: rest)) :
    labelledSlots s = .accepted ((first, a), (second, b)) rest := by
  have ha := labelledSlot_complete ha (separator_ends hs)
  have hs := separator_complete rfl hs (labelled_starts hb)
  have hb := labelledSlot_complete hb (.of_blanks hc (by simp [endsValue]))
  have hc := blanks_complete hc (by simp [isBlank])
  simp [labelledSlots, ha, hs, hb, hc]

theorem pair_complete {v : Palette.Value} (h : Pair s v rest) : pair s = .accepted v rest := by
  rcases h with ⟨hb, hl, hs, hd, hc⟩ | ⟨hb, hd, hs, hl, hc⟩
  case lightDark =>
    have hb := blanks_complete hb (labelled_starts hl)
    simp [pair, pairOfLabels, hb, labelledSlots_complete hl hs hd hc]
  case darkLight =>
    have hb := blanks_complete hb (labelled_starts hd)
    simp [pair, pairOfLabels, hb, labelledSlots_complete hd hs hl hc]

theorem slot_rejects (h : s.head? = some '(') : Rejects slot s := by
  simp only [slot, orElse_rejects, map_rejects]
  exact ⟨⟨hexColor_rejects (by simp [h]), channelColor_rejects (by simp [h])⟩,
    reference_rejects (by simp [h])⟩

theorem value_complete {v : Palette.Value} (h : Grammar.Value s v rest) (he : Ends rest) :
    value s = .accepted v rest := by
  simp only [value, orElse_eq_accepted, map_eq_accepted, map_rejects]
  rcases h with h | h
  case plain => exact .inl ⟨_, slot_complete h he, rfl⟩
  case pair  => exact .inr ⟨slot_rejects (by cases h <;> rfl), pair_complete h⟩

theorem value_starts {v : Palette.Value} (h : Grammar.Value s v rest) : Stops isBlank s := by
  rcases h with h | h
  case plain => exact slot_starts h
  case pair  => cases h <;> simp [isBlank]

theorem declaration_complete {d : Palette.Declaration} (h : Grammar.Declaration s d rest)
    (he : Ends rest) : declaration s = .accepted d rest := by
  obtain ⟨hn, hs, hv⟩ := h
  simp [declaration, labelled_complete hn hs (value_starts hv) (value_complete hv he)]

theorem variableDeclaration_complete {d : Palette.Declaration}
    (h : Grammar.Declaration s d rest) (he : Ends rest) :
    variableDeclaration ('$' :: s) = .accepted d rest := by
  obtain ⟨hn, hs, hv⟩ := h
  have hn := name_complete hn (separator_stops_alphanum hs rfl)
  have hs := separator_complete rfl hs (value_starts hv)
  simp [variableDeclaration, hn, hs, value_complete hv he]

end Palette.Reader
