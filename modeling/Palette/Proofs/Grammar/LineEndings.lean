import Palette.Proofs.Grammar.Exactness
import Palette.Proofs.Grammar.Location
import Palette.Proofs.Grammar.Lockstep

-- It makes no difference to a sheet which of the two line breaks it is written with.

namespace Palette

-- The text with a carriage return in front of every line feed.
def withReturns (s : List Char) : List Char :=
  s.flatMap fun c => if c = '\n' then ['\r', '\n'] else [c]

theorem withReturns_append {s t : List Char} : withReturns (s ++ t) = withReturns s ++ withReturns t :=
  List.flatMap_append

theorem withReturns_lineFeed {s : List Char} :
    withReturns ('\n' :: s) = '\r' :: '\n' :: withReturns s :=
  rfl

theorem withReturns_cons {c : Char} {s : List Char} (h : c ≠ '\n') :
    withReturns (c :: s) = c :: withReturns s := by
  simp [withReturns, h]

namespace Reader

def ReturnFree (s : List Char) : Prop :=
  '\r' ∉ s

instance : Hereditary ReturnFree where
  suffix hs hr hm := hs <| hr.mem hm

instance : Relines withReturns where
  cons := withReturns_cons
  ends {s} h := by
    cases s
    case nil => exact .nil
    case cons c s =>
      obtain rfl : c = '\n' := by simpa using h
      exact Stops.cons_iff.mpr rfl
  grows {s c} := by
    by_cases hc : c = '\n'
    case pos => simp only [hc, withReturns_lineFeed, List.length_cons]; omega
    case neg => simp [withReturns_cons hc]

variable {s rest : List Char} {closer : Reader Unit}

theorem lockstep_lineBreak : Lockstep ReturnFree withReturns lineBreak where
  forward := forward_lineBreak
  carries {s} hs := by
    cases s
    case nil => rfl
    case cons c s =>
      by_cases hc : c = '\n'
      case pos => subst hc; rfl
      case neg =>
        have hr : c ≠ '\r' := by rintro rfl; exact hs List.mem_cons_self
        simp [withReturns_cons hc, lineBreak, hc, hr, Reply.carry, Fault.carry]

theorem afterComment?_withReturns (hs : ReturnFree s) :
    afterComment? (withReturns s) = (afterComment? s).map withReturns := by
  have none {u : List Char} (hu : ∀ text, u ≠ ['/', '/'] ++ text) : afterComment? u = none := by
    unfold afterComment?
    split
    case h_1 text => exact absurd rfl (hu text)
    case h_2      => rfl
  have slashes : ∀ c ∈ ['/', '/'], isLineBreak c = false := by simp [isLineBreak]
  by_cases h : ∃ text, s = ['/', '/'] ++ text
  case neg =>
    have hn : ∀ text, s ≠ ['/', '/'] ++ text := fun text he => h ⟨text, he⟩
    rw [none hn, none fun text he => ?_, Option.map_none]
    obtain ⟨text, he, _⟩ := (Relines.eq_append_iff slashes).mp he
    exact hn text he
  case pos =>
    obtain ⟨text, rfl⟩ := h
    have hd : (withReturns text).dropWhile (!isLineBreak ·) =
        withReturns (text.dropWhile (!isLineBreak ·)) :=
      Relines.dropWhile_eq <| by simp
    have hf : ReturnFree (text.dropWhile (!isLineBreak ·)) :=
      Hereditary.suffix hs <| (text.dropWhile_suffix _).trans <| List.suffix_append ..
    show afterComment? ('/' :: '/' :: withReturns text) = _
    simp only [afterComment?, hd]
    cases he : text.dropWhile (!isLineBreak ·) with
    | nil => simp [he, withReturns]
    | cons c r =>
      have hb := dropWhile_head he
      rw [he] at hf
      have hc : c = '\n' := by
        have hr : c ≠ '\r' := by rintro rfl; exact hf List.mem_cons_self
        simpa [isLineBreak, hr] using hb
      simp [he, hc, withReturns_lineFeed]

theorem skipTrivia_withReturns (hs : ReturnFree s) :
    skipTrivia (withReturns s) = withReturns (skipTrivia s) := by
  fun_induction skipTrivia s
  case case1 => exact skipTrivia_stops .nil
  case case2 c s h ih =>
    have ih := ih <| Hereditary.suffix hs <| List.suffix_cons ..
    by_cases hc : c = '\n'
    case pos =>
      subst hc
      rw [withReturns_lineFeed, skipTrivia_cons rfl, skipTrivia_cons rfl, ih]
    case neg => rw [withReturns_cons hc, skipTrivia_cons h, ih]
  case case3 c s _ rest ha ih =>
    have hc : afterComment? (withReturns (c :: s)) = some (withReturns rest) := by
      rw [afterComment?_withReturns hs, ha, Option.map_some]
    rw [skipTrivia_afterComment? hc]
    exact ih <| Hereditary.suffix hs <| afterComment?_suffix ha
  case case4 c s h ha =>
    have hc : c ≠ '\n' := by rintro rfl; exact h rfl
    have ha : afterComment? (c :: withReturns s) = none := by
      rw [← withReturns_cons hc, afterComment?_withReturns hs, ha, Option.map_none]
    rw [withReturns_cons hc, skipTrivia, if_neg h]
    split
    case h_1 hr => rw [ha] at hr; cases hr
    case h_2    => rfl

theorem lockstep_trivia : Lockstep ReturnFree withReturns trivia where
  forward    := forward_trivia
  carries hs := congrArg (Reply.accepted ()) <| skipTrivia_withReturns hs

theorem lockstep_lineTail : Lockstep ReturnFree withReturns lineTail where
  forward := forward_lineTail
  carries {s} hs := by
    have hb : (withReturns s).dropWhile isBlank = withReturns (s.dropWhile isBlank) :=
      Relines.dropWhile_eq <| NonePass.of_lineBreak rfl
    have hf : ReturnFree (s.dropWhile isBlank) := Hereditary.suffix hs <| s.dropWhile_suffix _
    simp only [lineTail, hb, afterComment?_withReturns hf]
    cases afterComment? (s.dropWhile isBlank) <;> rfl

theorem lockstep_endOfInput : Lockstep ReturnFree withReturns endOfInput where
  forward := .endOfInput
  carries {s} hs := by
    cases s
    case nil => rfl
    case cons c s =>
      by_cases hc : c = '\n'
      case pos => subst hc; rfl
      case neg => simp [withReturns_cons hc, endOfInput, Reply.carry, Fault.carry]

theorem lockstep_itemEnd (h : Lockstep ReturnFree withReturns closer) :
    Lockstep ReturnFree withReturns (itemEnd closer) :=
  lockstep_lineTail.bind fun _ => .orElse (lockstep_lineBreak.bind fun _ => lockstep_trivia) h.peek

theorem lockstep_ended {item : Reader α} (hi : Lockstep ReturnFree withReturns item)
    (hc : Lockstep ReturnFree withReturns closer) :
    Lockstep ReturnFree withReturns (do let a ← item; itemEnd closer; return a) :=
  hi.bind fun _ => (lockstep_itemEnd hc).bind fun _ => .pure _

theorem lockstep_group (levels : Nat) : Lockstep ReturnFree withReturns (group levels) := by
  induction levels
  case zero => exact .fromStart <| lockstep_groupOpening.within.bind fun _ => .abortAt
  case succ levels ih =>
    refine lockstep_groupOpening.bind fun _ => .bind (.commit ?_) fun _ => .pure _
    refine lockstep_trivia.bind fun _ => .manyTill (lockstep_ended ?_ ?_) ?_
    · exact ih.orElse lockstep_declaration.map
    · exact .character rfl
    · exact .character rfl

theorem lockstep_topItem : Lockstep ReturnFree withReturns topItem :=
  .orElse (.orElse lockstep_variableDeclaration.map (lockstep_group maxNesting).map)
    lockstep_declaration.map

theorem lockstep_sheet : Lockstep ReturnFree withReturns sheet := by
  refine lockstep_trivia.bind fun _ => .bind (.manyTill ?_ lockstep_endOfInput) fun _ => .pure _
  exact lockstep_ended lockstep_topItem lockstep_endOfInput

end Reader

namespace Location

-- A carriage return takes one byte, and the line feed behind it starts the columns over.
theorem foldl_step_withReturns {l : Location} :
    (withReturns s).foldl step l =
      { s.foldl step l with offset := (s.foldl step l).offset + s.count '\n' } := by
  induction s generalizing l
  case nil => rfl
  case cons c s ih =>
    by_cases hc : c = '\n'
    case neg =>
      rw [withReturns_cons hc, List.foldl_cons, ih, List.foldl_cons, List.count_cons_of_ne hc]
    case pos =>
      subst hc
      have hl : (l.step '\r').step '\n' =
          ⟨1 + (l.step '\n').offset, 0 + (l.step '\n').line, (l.step '\n').column⟩ := by
        simp only [step, Char.reduceEq, if_true, if_false, Nat.zero_add]
        congr 1
        have : Char.utf8Size '\r' = 1 := rfl
        omega
      rw [withReturns_lineFeed, List.foldl_cons, List.foldl_cons, hl, foldl_step_shift, ih,
        List.foldl_cons, List.count_cons_self, Nat.zero_add]
      simp only [mk.injEq, and_true]
      omega

theorem after_withReturns :
    after (withReturns s) = { after s with offset := (after s).offset + s.count '\n' } :=
  foldl_step_withReturns

end Location

namespace Found

-- What is found at a line break.
def withReturns : Found → Found
  | .lineBreak => .line []
  | found      => found

theorem firstLine_withReturns (h : '\r' ∉ s) : firstLine (Palette.withReturns s) = firstLine s := by
  induction s
  case nil => rfl
  case cons c s ih =>
    rw [List.mem_cons, not_or] at h
    by_cases hc : c = '\n'
    case pos => subst hc; rfl
    case neg =>
      have line {u : List Char} : firstLine (c :: u) = c :: firstLine u := by
        rw [firstLine]
        · exact hc
        · exact fun _ hr => absurd hr.symm h.left
      rw [withReturns_cons hc, line, line, ih h.right]

theorem ofText_withReturns (h : '\r' ∉ s) : ofText (Palette.withReturns s) = (ofText s).withReturns := by
  cases s
  case nil => rfl
  case cons c s =>
    by_cases hc : c = '\n'
    case pos => subst hc; rfl
    case neg =>
      have text {u : List Char} : ofText (c :: u) =
          if (firstLine (c :: u)).length ≤ maxExcerpt then .line (firstLine (c :: u))
          else .lineStart ((firstLine (c :: u)).take maxExcerpt) := by
        unfold ofText
        split <;> simp_all
      have hl := firstLine_withReturns h
      rw [withReturns_cons hc] at hl ⊢
      rw [text, text, hl]
      split <;> rfl

end Found

namespace ParseError

-- The error where each line feed of a text has got a carriage return.
def withReturns (e : ParseError) (source : List Char) : ParseError where
  location :=
    ⟨e.location.offset + (Location.takeBytes e.location.offset source).count '\n',
      e.location.line, e.location.column⟩
  expected := e.expected
  found := e.found.withReturns

theorem atRest_withReturns {source rest : List Char} {expected : List Expectation} (h : '\r' ∉ source)
    (hr : rest <:+ source) :
    atRest (Palette.withReturns source) (Palette.withReturns rest) expected =
      (atRest source rest expected).withReturns source := by
  obtain ⟨front, rfl⟩ := hr
  have hf : '\r' ∉ rest := fun hm => h <| List.mem_append_right _ hm
  rw [withReturns_append, atRest_append, atRest_append, Found.ofText_withReturns hf,
    Location.after_withReturns]
  simp only [withReturns, Location.takeBytes_after]

end ParseError

namespace Sheet

theorem parseChars_withReturns (h : '\r' ∉ s) :
    parseChars (withReturns s) = (parseChars s).mapError (·.withReturns s) := by
  have hf := Reader.forward_sheet s
  unfold parseChars
  rw [Reader.lockstep_sheet.carries h]
  cases hs : Reader.sheet s <;> rw [hs] at hf
  case accepted => rfl
  all_goals exact congrArg Except.error <| ParseError.atRest_withReturns h hf

-- A sheet whose lines end in carriage returns and line feeds is read as one whose lines end in line
-- feeds. Where reading fails it fails at the same line and column for want of the same, and its
-- offset counts a carriage return for each line feed before it.
theorem parse_withReturns (source : String) (h : '\r' ∉ source.toList) :
    (∀ d, parse (String.ofList (withReturns source.toList)) = .ok d ↔ parse source = .ok d) ∧
    ∀ e, parse source = .error e →
      parse (String.ofList (withReturns source.toList)) = .error
        { location :=
            { offset := e.location.offset +
                (Location.takeBytes e.location.offset source.toList).count '\n'
              line   := e.location.line
              column := e.location.column }
          expected := e.expected
          found    := e.found.withReturns } := by
  have hp : parse (String.ofList (withReturns source.toList)) =
      (parse source).mapError (·.withReturns source.toList) := by
    rw [parse, String.toList_ofList]
    exact parseChars_withReturns h
  rw [hp]
  cases parse source
  case ok d    => exact ⟨fun _ => Iff.rfl, nofun⟩
  case error e => exact ⟨fun _ => by simp [Except.mapError], fun _ he => Except.error.inj he ▸ rfl⟩

-- Line 1 of this text is empty, and on line 2 there is something that begins no item.
theorem parse_withReturns_question :
    parse "\r\n?" = .error ⟨⟨2, 2, 1⟩, [.character '$', .name], .line ['?']⟩ := by
  have ht : Reader.skipTrivia ['\n', '?'] = ['?'] := by
    rw [Reader.skipTrivia_cons rfl, Reader.skipTrivia_stops]
    exact Reader.Stops.cons_iff.mpr rfl
  have hs : Reader.sheet ['\n', '?'] = .rejected ⟨['?'], [.character '$', .name]⟩ :=
    Grammar.sheet_rejected ht nofun rfl
  have he : parse "\n?" = .error ⟨⟨1, 2, 1⟩, [.character '$', .name], .line ['?']⟩ := by
    simp only [parse, parseChars, String.reduceToList, hs]
    rfl
  exact (parse_withReturns "\n?" (by decide)).right _ he

end Sheet

end Palette
