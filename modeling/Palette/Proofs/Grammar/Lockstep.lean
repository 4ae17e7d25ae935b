import Palette.Proofs.Grammar.Completeness
import Palette.Proofs.Grammar.Progress

-- Texts that differ in their line breaks only are read alike. Such a change of texts can be carried
-- through every reader that stays on one line: what it accepts and what it complains about stay the
-- same, and the text that is left is changed in the same way.

namespace Palette

def Fault.carry (φ : List Char → List Char) (f : Fault) : Fault :=
  { f with rest := φ f.rest }

def Reply.carry (φ : List Char → List Char) : Reply α → Reply α
  | .accepted a rest => .accepted a (φ rest)
  | .rejected f      => .rejected (f.carry φ)
  | .aborted f       => .aborted (f.carry φ)

namespace Reader

-- A change of texts that leaves alone whatever stands in front of a line feed. Where there was a line
-- feed or the end of the text, there is a line break or the end afterwards.
class Relines (φ : List Char → List Char) : Prop where
  cons  : c ≠ '\n' → φ (c :: s) = c :: φ s
  ends  : Stops (· != '\n') s → Stops (!isLineBreak ·) (φ s)
  grows : (φ s).length < (φ (c :: s)).length

-- Whatever is left of such a text is such a text.
class Hereditary (D : List Char → Prop) : Prop where
  suffix : D s → rest <:+ s → D rest

-- On some texts a reader goes on after a change as it did before.
structure Lockstep (D : List Char → Prop) (φ : List Char → List Char) (p : Reader α) : Prop where
  forward : Forward p
  carries : D s → p (φ s) = (p s).carry φ

variable {α β : Type} {p q : Reader α} {s rest : List Char} {D : List Char → Prop}
variable {φ : List Char → List Char}

namespace Relines

variable [Relines φ]

-- Either one character is the same, or both texts are at the end of a line.
theorem cases (φ : List Char → List Char) [Relines φ] (s : List Char) :
    (∃ c r, s = c :: r ∧ isLineBreak c = false ∧ φ s = c :: φ r) ∨
      Stops (!isLineBreak ·) s ∧ Stops (!isLineBreak ·) (φ s) := by
  cases s
  case nil => exact .inr ⟨.nil, ends .nil⟩
  case cons c r =>
    by_cases hc : c = '\n'
    case pos =>
      subst hc
      exact .inr ⟨Stops.cons_iff.mpr rfl, ends <| Stops.cons_iff.mpr rfl⟩
    case neg =>
      cases hb : isLineBreak c
      case false => exact .inl ⟨c, r, rfl, hb, cons hc⟩
      case true =>
        have hφ : φ (c :: r) = c :: φ r := cons hc
        rw [hφ]
        exact .inr ⟨Stops.cons_iff.mpr <| by simp [hb], Stops.cons_iff.mpr <| by simp [hb]⟩

-- No line is broken within the characters in front.
theorem eq_append_iff {cs u : List Char} (h : ∀ c ∈ cs, isLineBreak c = false) :
    φ s = cs ++ u ↔ ∃ r, s = cs ++ r ∧ φ r = u := by
  induction cs generalizing s
  case nil => simp
  case cons c cs ih =>
    have ⟨hc, hcs⟩ := List.forall_mem_cons.mp h
    rcases cases φ s with ⟨d, r, rfl, _, hφ⟩ | ⟨hs, hφ⟩
    case inl =>
      simp only [hφ, List.cons_append, List.cons.injEq, ih hcs]
      simp only [and_assoc, exists_and_left]
    case inr =>
      constructor
      case mp =>
        intro he
        rw [he, List.cons_append, Stops.cons_iff] at hφ
        simp [hc] at hφ
      case mpr =>
        rintro ⟨r, rfl, -⟩
        rw [List.cons_append, Stops.cons_iff] at hs
        simp [hc] at hs

section

variable {test : Char → Bool} (h : ∀ c, isLineBreak c → test c = false)

include h

theorem stops_of_lineBreak (hs : Stops (!isLineBreak ·) s) : Stops test s :=
  fun c hc => h c <| by simpa using hs c hc

theorem takeWhile_eq : (φ s).takeWhile test = s.takeWhile test := by
  induction s
  case nil =>
    have he : Stops test (φ []) := stops_of_lineBreak h <| ends .nil
    rw [he.takeWhile_eq_nil, List.takeWhile_nil]
  case cons c s ih =>
    rcases cases φ (c :: s) with ⟨_, _, hc, _, hφ⟩ | ⟨hs, hφ⟩
    case inl =>
      cases hc
      rw [hφ, List.takeWhile_cons, List.takeWhile_cons, ih]
    case inr =>
      rw [(stops_of_lineBreak h hs).takeWhile_eq_nil, (stops_of_lineBreak h hφ).takeWhile_eq_nil]

theorem dropWhile_eq : (φ s).dropWhile test = φ (s.dropWhile test) := by
  induction s
  case nil =>
    have he : Stops test (φ []) := stops_of_lineBreak h <| ends .nil
    rw [he.dropWhile_eq, List.dropWhile_nil]
  case cons c s ih =>
    rcases cases φ (c :: s) with ⟨_, _, hc, _, hφ⟩ | ⟨hs, hφ⟩
    case inl =>
      cases hc
      rw [hφ, List.dropWhile_cons, List.dropWhile_cons, ih]
      split
      · rfl
      · exact hφ.symm
    case inr =>
      rw [(stops_of_lineBreak h hs).dropWhile_eq, (stops_of_lineBreak h hφ).dropWhile_eq]

end

-- Of two ends of a text the shorter one stays the shorter one.

theorem length_lt_of_append {front : List Char} (h : front ≠ []) :
    (φ rest).length < (φ (front ++ rest)).length := by
  induction front
  case nil => contradiction
  case cons c front ih =>
    by_cases hf : front = []
    case pos => exact hf ▸ grows
    case neg => exact (ih hf).trans grows

theorem length_lt_iff {r r' : List Char} (h : r <:+ s) (h' : r' <:+ s) :
    (φ r).length < (φ r').length ↔ r.length < r'.length := by
  have lt {u v : List Char} (hu : u <:+ v) : (φ u).length < (φ v).length ∨ u = v := by
    obtain ⟨front, rfl⟩ := hu
    by_cases hf : front = []
    case pos => exact .inr <| hf ▸ rfl
    case neg => exact .inl <| length_lt_of_append hf
  rcases List.suffix_or_suffix_of_suffix h h' with hr | hr
  case inl =>
    rcases lt hr with hl | rfl
    case inl =>
      have hn : r ≠ r' := by rintro rfl; exact Nat.lt_irrefl _ hl
      have := hr.length_le
      have := mt hr.eq_of_length hn
      omega
    case inr => simp
  case inr =>
    have := hr.length_le
    rcases lt hr with hl | rfl <;> omega

end Relines

theorem Fault.merge_carry [Relines φ] {f g : Fault} (hf : f.rest <:+ s) (hg : g.rest <:+ s) :
    (f.carry φ).merge (g.carry φ) = (f.merge g).carry φ := by
  have hl : (φ f.rest).length < (φ g.rest).length ↔ _ := Relines.length_lt_iff hf hg
  have hl' : (φ g.rest).length < (φ f.rest).length ↔ _ := Relines.length_lt_iff hg hf
  simp only [Fault.merge, Fault.carry, hl, hl']
  split
  · rfl
  · split <;> rfl

namespace Lockstep

theorem pure (a : α) : Lockstep D φ (pure a) where
  forward   := .pure a
  carries _ := rfl

theorem bind [Hereditary D] {next : α → Reader β} (hp : Lockstep D φ p)
    (hn : ∀ a, Lockstep D φ (next a)) : Lockstep D φ (p >>= next) where
  forward := hp.forward.bind fun a => (hn a).forward
  carries {s} hs := by
    simp only [Bind.bind, hp.carries hs]
    cases h : p s with
    | accepted a rest => exact (hn a).carries <| Hereditary.suffix hs <| hp.forward.accepted h
    | _               => rfl

theorem map [Hereditary D] {f : α → β} (h : Lockstep D φ p) : Lockstep D φ (f <$> p) :=
  h.bind fun _ => pure _

theorem orElse [Relines φ] (hp : Lockstep D φ p) (hq : Lockstep D φ q) :
    Lockstep D φ (orElse p q) where
  forward := hp.forward.orElse hq.forward
  carries {s} hs := by
    have hf := hp.forward s
    have hg := hq.forward s
    simp only [Reader.orElse, hp.carries hs, hq.carries hs]
    cases h : p s with
    | rejected f =>
      rw [h] at hf
      cases h' : q s with
      | rejected g =>
        rw [h'] at hg
        exact congrArg Reply.rejected <| Fault.merge_carry hf hg
      | _ => rfl
    | _ => rfl

theorem commit (h : Lockstep D φ p) : Lockstep D φ (commit p) where
  forward := h.forward.commit
  carries {s} hs := by
    simp only [Reader.commit, h.carries hs]
    cases p s <;> rfl

theorem optional (h : Lockstep D φ p) : Lockstep D φ (optional p) where
  forward := h.forward.optional
  carries {s} hs := by
    simp only [Reader.optional, h.carries hs]
    cases p s <;> rfl

theorem peek (h : Lockstep D φ p) : Lockstep D φ (peek p) where
  forward := h.forward.peek
  carries {s} hs := by
    simp only [Reader.peek, h.carries hs]
    cases p s <;> rfl

-- A reader that is told the text it starts on is told the changed one.
structure Within (D : List Char → Prop) (φ : List Char → List Char) (p : List Char → Reader α) :
    Prop where
  within  : ∀ {start}, Forward.Within start (p start)
  carries : ∀ {start s}, D start → s <:+ start → p (φ start) (φ s) = (p start s).carry φ

theorem within [Hereditary D] (h : Lockstep D φ p) : Within D φ fun _ => p where
  within        := h.forward.within _
  carries hd hs := h.carries <| Hereditary.suffix hd hs

theorem Within.bind {p : List Char → Reader α} {next : List Char → α → Reader β}
    (hp : Within D φ p) (hn : ∀ a, Within D φ (next · a)) :
    Within D φ fun start => p start >>= next start where
  within := hp.within.bind fun a => (hn a).within
  carries {start s} hd hs := by
    have hw : (p start s).Within start := hp.within s hs
    simp only [Bind.bind, hp.carries hd hs]
    cases h : p start s with
    | accepted a rest => rw [h] at hw; exact (hn a).carries hd hw
    | _               => rfl

theorem Within.rejectAt {e : Expectation} :
    Within D φ fun start => (rejectAt start e : Reader α) where
  within _ _    := List.suffix_refl _
  carries _ _   := rfl

theorem Within.abortAt {e : Expectation} :
    Within D φ fun start => (abortAt start e : Reader α) where
  within _ _    := List.suffix_refl _
  carries _ _   := rfl

theorem fromStart {p : List Char → Reader α} (h : Within D φ p) : Lockstep D φ (fromStart p) where
  forward    := .fromStart fun _ => h.within
  carries hs := h.carries hs <| List.suffix_refl _

theorem refine [Hereditary D] {f : α → Except Expectation β} (h : Lockstep D φ p) :
    Lockstep D φ (Reader.refine p f) := by
  refine .fromStart <| h.within.bind fun a => ?_
  cases f a
  case ok    => exact (pure _).within
  case error => exact .rejectAt

theorem many1 [Relines φ] {test : Char → Bool} {expected : List Expectation}
    (h : ∀ c, isLineBreak c → test c = false) : Lockstep D φ (many1 test expected) where
  forward := .many1
  carries {s} _ := by
    simp only [Reader.many1, Relines.takeWhile_eq h, Relines.dropWhile_eq h]
    split <;> rfl

-- Whether a reader accepts is told by the characters in front, and these are all that it reads.
theorem of_front [Relines φ] (Front : List Char → α → Prop) (expected : List Expectation)
    (forward : Forward p) (line : ∀ cs a, Front cs a → ∀ c ∈ cs, isLineBreak c = false)
    (accepts : ∀ cs a rest, Front cs a → p (cs ++ rest) = .accepted a rest)
    (rejects : ∀ s, (∀ cs a rest, Front cs a → s ≠ cs ++ rest) → p s = .rejected ⟨s, expected⟩) :
    Lockstep D φ p where
  forward := forward
  carries {s} _ := by
    by_cases h : ∃ cs a rest, Front cs a ∧ s = cs ++ rest
    case pos =>
      obtain ⟨cs, a, rest, hf, rfl⟩ := h
      have hφ : φ (cs ++ rest) = cs ++ φ rest :=
        (Relines.eq_append_iff <| line cs a hf).mpr ⟨rest, rfl, rfl⟩
      rw [hφ, accepts cs a rest hf, accepts cs a _ hf]
      rfl
    case neg =>
      rw [rejects s fun cs a rest hf he => h ⟨cs, a, rest, hf, he⟩]
      refine rejects _ fun cs a u hf he => ?_
      have ⟨rest, hs, _⟩ := (Relines.eq_append_iff <| line cs a hf).mp he
      exact h ⟨cs, a, rest, hf, hs⟩

theorem character [Relines φ] {c : Char} (h : isLineBreak c = false) :
    Lockstep D φ (character c) := by
  refine of_front (fun cs _ => cs = [c]) [.character c] .character ?line ?accepts ?rejects
  case line =>
    rintro _ _ rfl
    simpa using h
  case accepts =>
    rintro _ _ rest rfl
    simp [Reader.character]
  case rejects =>
    intro s hs
    cases s
    case nil => rfl
    case cons x rest =>
      have hn : x ≠ c := fun hx => hs [c] () rest rfl <| by simp [hx]
      simp [Reader.character, hn]

theorem manyTill [Relines φ] [Hereditary D] {stop : Reader β} (hp : Lockstep D φ p)
    (hs : Lockstep D φ stop) : Lockstep D φ (manyTill p stop) where
  forward := hp.forward.manyTill hs.forward
  carries {s} hd := by
    -- Progress is made after the change where it was made before.
    have progress {s a rest} (hi : p s = .accepted a rest) :
        (φ rest).length < (φ s).length ↔ rest.length < s.length :=
      Relines.length_lt_iff (hp.forward.accepted hi) (List.suffix_refl s)
    have left {s a rest} (hd : D s) (hi : p s = .accepted a rest) : D rest :=
      Hereditary.suffix hd <| hp.forward.accepted hi
    fun_induction Reader.manyTill p stop s
    all_goals rw [Reader.manyTill, hs.carries hd]
    case case1 h | case2 h => simp only [h, Reply.carry]
    case case3 h _ hi | case4 h _ hi =>
      simp only [h, hp.carries hd, hi, Reply.carry]
    case case5 h _ _ hi hl _ _ hr ih | case6 h _ _ hi hl _ hr ih | case7 h _ _ hi hl _ hr ih =>
      rw [hr] at ih
      simp only [h, hp.carries hd, hi, Reply.carry, (progress hi).mpr hl, if_true, ih (left hd hi)]
    case case8 h _ _ hi hl =>
      simp only [h, hp.carries hd, hi, Reply.carry, mt (progress hi).mp hl, if_false]
      rfl

end Lockstep

-- The readers that stay on one line.

theorem NonePass.of_lineBreak {test : Char → Bool} (h : NonePass test ['\r', '\n']) (c : Char)
    (hc : isLineBreak c) : test c = false := by
  apply h.of_mem
  simpa [isLineBreak] using hc

section

variable [Relines φ]

theorem splitSign_carry : Numeral.splitSign (φ s) = (Numeral.splitSign s).map id φ := by
  rcases Relines.cases φ s with ⟨c, r, rfl, _, hφ⟩ | ⟨hs, hφ⟩
  case inl =>
    rw [hφ]
    by_cases hm : c = '-'
    case pos => subst hm; rfl
    case neg =>
      by_cases hp : c = '+'
      case pos => subst hp; rfl
      case neg => simp [Numeral.splitSign, hm, hp, hφ]
  case inr =>
    have signs : ∀ c, isLineBreak c → isSign c = false := NonePass.of_lineBreak rfl
    rw [sign_complete .none (Relines.stops_of_lineBreak signs hs),
      sign_complete .none (Relines.stops_of_lineBreak signs hφ)]
    rfl

theorem splitDigits_carry : Numeral.splitDigits (φ s) = (Numeral.splitDigits s).map id φ := by
  have digits : ∀ c, isLineBreak c → c.isDigit = false := NonePass.of_lineBreak rfl
  simp [Numeral.splitDigits, Relines.takeWhile_eq digits, Relines.dropWhile_eq digits]

theorem splitFraction_carry : Numeral.splitFraction (φ s) = (Numeral.splitFraction s).map id φ := by
  have none {u : List Char} (hu : Stops (· == '.') u) : Numeral.splitFraction u = ([], u) := by
    unfold Numeral.splitFraction
    split <;> simp_all
  have points : ∀ c, isLineBreak c → (c == '.') = false := NonePass.of_lineBreak rfl
  rcases Relines.cases φ s with ⟨c, r, rfl, _, hφ⟩ | ⟨hs, hφ⟩
  case inl =>
    by_cases hp : c = '.'
    case pos =>
      subst hp
      rw [hφ]
      exact splitDigits_carry
    case neg =>
      rw [none (u := c :: r) (by simpa using hp), hφ, none (by simpa using hp), ← hφ]
      rfl
  case inr =>
    rw [none (Relines.stops_of_lineBreak points hs), none (Relines.stops_of_lineBreak points hφ)]
    rfl

theorem splitExponent?_carry :
    Numeral.splitExponent? (φ s) = (Numeral.splitExponent? s).map (Prod.map id φ) := by
  have none {u : List Char} (hu : Stops (fun c => c == 'e' || c == 'E') u) :
      Numeral.splitExponent? u = some (0, u) := by
    cases u
    case nil      => rfl
    case cons c u => simp [Numeral.splitExponent?, Stops.cons_iff.mp hu]
  have marks : ∀ c, isLineBreak c → (c == 'e' || c == 'E') = false := NonePass.of_lineBreak rfl
  rcases Relines.cases φ s with ⟨c, r, rfl, _, hφ⟩ | ⟨hs, hφ⟩
  case inl =>
    cases hm : c == 'e' || c == 'E'
    case false =>
      rw [none (u := c :: r) (Stops.cons_iff.mpr hm), hφ, none (Stops.cons_iff.mpr hm), ← hφ]
      rfl
    case true =>
      rw [hφ, Numeral.splitExponent?, Numeral.splitExponent?, if_pos hm, if_pos hm, splitSign_carry]
      simp only [Prod.map_fst, Prod.map_snd, splitDigits_carry, id]
      split <;> rfl
  case inr =>
    rw [none (Relines.stops_of_lineBreak marks hs), none (Relines.stops_of_lineBreak marks hφ)]
    rfl

theorem splitDecimal?_carry :
    Numeral.splitDecimal? (φ s) = (Numeral.splitDecimal? s).map (Prod.map id φ) := by
  simp only [Numeral.splitDecimal?, splitSign_carry, splitDigits_carry, splitFraction_carry,
    splitExponent?_carry, Prod.map_fst, Prod.map_snd, id]
  split
  · rfl
  · cases Numeral.splitExponent? _ <;> rfl

-- The letters of a special numeral stand on one line.
omit [Relines φ] in
theorem line_of_splitSpecial? {x : Numeral × List Char} (h : Numeral.splitSpecial? s = some x) :
    ∃ a b c r, s = [a, b, c] ++ r ∧ ∀ d ∈ [a, b, c], isLineBreak d = false := by
  have letter {c l : Char} (hc : c.toLower = l) (hl : isLineBreak l = false) :
      isLineBreak c = false := by
    by_contra hb
    have hb : c = '\r' ∨ c = '\n' := by simpa [isLineBreak, or_iff_not_imp_left] using hb
    rcases hb with rfl | rfl <;> subst hc <;> exact absurd hl (by decide)
  unfold Numeral.splitSpecial? at h
  split at h
  case h_2 => cases h
  case h_1 a b c r =>
    refine ⟨a, b, c, r, rfl, ?_⟩
    split at h
    case h_1 ha hb hc | h_2 ha hb hc => simp [letter ha rfl, letter hb rfl, letter hc rfl]
    case h_3                         => cases h

theorem splitSpecial?_carry :
    Numeral.splitSpecial? (φ s) = (Numeral.splitSpecial? s).map (Prod.map id φ) := by
  by_cases h : ∃ a b c r, s = [a, b, c] ++ r ∧ ∀ d ∈ [a, b, c], isLineBreak d = false
  case pos =>
    obtain ⟨a, b, c, r, rfl, hl⟩ := h
    have hφ : φ ([a, b, c] ++ r) = [a, b, c] ++ φ r := (Relines.eq_append_iff hl).mpr ⟨r, rfl, rfl⟩
    rw [hφ]
    simp only [List.cons_append, List.nil_append, Numeral.splitSpecial?]
    split <;> rfl
  case neg =>
    have hs : Numeral.splitSpecial? s = none :=
      Option.eq_none_iff_forall_ne_some.mpr fun _ hx => h <| line_of_splitSpecial? hx
    have hφ : Numeral.splitSpecial? (φ s) = none := by
      refine Option.eq_none_iff_forall_ne_some.mpr fun _ hx => ?_
      obtain ⟨a, b, c, u, he, hl⟩ := line_of_splitSpecial? hx
      have ⟨r, hs, _⟩ := (Relines.eq_append_iff hl).mp he
      exact h ⟨a, b, c, r, hs, hl⟩
    rw [hs, hφ, Option.map_none]

theorem lockstep_numeral : Lockstep D φ numeral where
  forward := forward_numeral
  carries {s} _ := by
    have hs : Numeral.split? (φ s) = (Numeral.split? s).map (Prod.map id φ) := by
      rw [Numeral.split?, Numeral.split?, splitDecimal?_carry, splitSpecial?_carry]
      cases Numeral.splitDecimal? s <;> rfl
    rw [numeral, hs, numeral]
    cases Numeral.split? s <;> rfl

theorem lockstep_blanks : Lockstep D φ blanks where
  forward   := forward_blanks
  carries _ := congrArg (Reply.accepted ()) <| Relines.dropWhile_eq <| NonePass.of_lineBreak rfl

theorem lockstep_hexPair : Lockstep D φ hexPair := by
  refine .of_front (fun cs x => ∃ a b, cs = [a, b] ∧ (isHexDigit a ∧ isHexDigit b) ∧
    x = (16 * hexValue a + hexValue b).toUInt8) [.hexPair] forward_hexPair ?line ?accepts ?rejects
  case line =>
    have digits : ∀ c, isLineBreak c → isHexDigit c = false := NonePass.of_lineBreak rfl
    rintro _ _ ⟨a, b, rfl, ⟨ha, hb⟩, -⟩ c hc
    by_contra hl
    have hh := digits c (by simpa using hl)
    simp only [List.mem_cons, List.not_mem_nil, or_false] at hc
    rcases hc with rfl | rfl <;> simp_all
  case accepts =>
    rintro _ _ rest ⟨a, b, rfl, h, rfl⟩
    simp [hexPair, h]
  case rejects =>
    intro s hs
    unfold hexPair
    split
    case h_1 a b rest =>
      have hn : ¬(isHexDigit a ∧ isHexDigit b) := fun h => hs _ _ rest ⟨a, b, rfl, h, rfl⟩ rfl
      simp only [Bool.and_eq_true, hn, if_false]
    case h_2 => rfl

theorem lockstep_channelsOpening : Lockstep D φ channelsOpening := by
  refine .of_front (fun cs _ => cs = ['r', 'g', 'b', 'a', '(']) [.channels]
    forward_channelsOpening ?line ?accepts ?rejects
  case line    => rintro _ _ rfl; simp [isLineBreak]
  case accepts => rintro _ _ rest rfl; rfl
  case rejects =>
    intro s hs
    unfold channelsOpening
    split
    case h_1 rest => exact absurd rfl <| hs _ () rest rfl
    case h_2      => rfl

theorem lockstep_digits : Lockstep D φ digits :=
  .many1 <| NonePass.of_lineBreak rfl

variable [Hereditary D]

theorem lockstep_separator {c : Char} (h : isLineBreak c = false) : Lockstep D φ (separator c) :=
  lockstep_blanks.bind fun _ => .bind (.character h) fun _ => lockstep_blanks

theorem lockstep_name : Lockstep D φ name :=
  .bind (.many1 <| NonePass.of_lineBreak rfl) fun _ => .pure _

theorem lockstep_percentage : Lockstep D φ percentage := by
  refine .fromStart <| lockstep_digits.within.bind fun ds =>
    (Lockstep.character rfl).within.bind fun _ => ?_
  split
  · exact (Lockstep.pure _).within
  · exact .abortAt

theorem lockstep_opacity : Lockstep D φ opacity :=
  .bind (.optional (.bind (.many1 <| NonePass.of_lineBreak rfl) fun _ => lockstep_percentage))
    fun _ => .pure _

theorem lockstep_hexColor : Lockstep D φ hexColor :=
  .bind (.character rfl) fun _ => .bind (.commit <|
    lockstep_hexPair.bind fun _ => lockstep_hexPair.bind fun _ => lockstep_hexPair.bind fun _ =>
      .pure _) fun _ => lockstep_opacity.bind fun _ => .pure _

theorem lockstep_channel : Lockstep D φ channel :=
  lockstep_digits.refine

theorem lockstep_alpha : Lockstep D φ alpha := by
  refine .fromStart <| lockstep_numeral.within.bind fun n => ?_
  split
  · exact (Lockstep.pure _).within
  · exact .abortAt

theorem lockstep_channelColor : Lockstep D φ channelColor :=
  lockstep_channelsOpening.bind fun _ => .commit <|
    lockstep_blanks.bind fun _ => lockstep_channel.bind fun _ =>
    (lockstep_separator rfl).bind fun _ => lockstep_channel.bind fun _ =>
    (lockstep_separator rfl).bind fun _ => lockstep_channel.bind fun _ =>
    (lockstep_separator rfl).bind fun _ => lockstep_alpha.bind fun _ =>
    lockstep_blanks.bind fun _ => .bind (.character rfl) fun _ => .pure _

theorem lockstep_reference : Lockstep D φ reference :=
  .bind (.character rfl) fun _ => .bind lockstep_name.commit fun _ =>
    lockstep_opacity.bind fun _ => .pure _

theorem lockstep_slot : Lockstep D φ slot :=
  .orElse (.orElse lockstep_hexColor.map lockstep_channelColor.map) lockstep_reference.map

theorem lockstep_labelled (h : Lockstep D φ p) : Lockstep D φ (labelled p) :=
  lockstep_name.bind fun _ => (lockstep_separator rfl).bind fun _ => h.commit.bind fun _ => .pure _

theorem lockstep_labelledSlots : Lockstep D φ labelledSlots :=
  (lockstep_labelled lockstep_slot).bind fun _ => (lockstep_separator rfl).bind fun _ =>
    (lockstep_labelled lockstep_slot).bind fun _ => lockstep_blanks.bind fun _ =>
    .bind (.character rfl) fun _ => .pure _

theorem lockstep_pair : Lockstep D φ pair :=
  .bind (.character rfl) fun _ => .commit <|
    lockstep_blanks.bind fun _ => lockstep_labelledSlots.refine

theorem lockstep_value : Lockstep D φ value :=
  .orElse lockstep_slot.map lockstep_pair

theorem lockstep_declaration : Lockstep D φ declaration :=
  (lockstep_labelled lockstep_value).bind fun _ => .pure _

theorem lockstep_variableDeclaration : Lockstep D φ variableDeclaration :=
  .bind (.character rfl) fun _ => .commit <| lockstep_name.bind fun _ =>
    (lockstep_separator rfl).bind fun _ => lockstep_value.bind fun _ => .pure _

theorem lockstep_groupOpening : Lockstep D φ groupOpening :=
  lockstep_name.bind fun _ => lockstep_blanks.bind fun _ => .bind (.character rfl) fun _ => .pure _

end

end Reader

end Palette
