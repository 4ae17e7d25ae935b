import Palette.Proofs.Grammar.Completeness
import Palette.Proofs.Json.Grammar

-- A reader of JSON texts. Whatever a text denotes, the reader gives, and so a text denotes at most one
-- thing.

namespace Palette

namespace Json

open Reader (Stops StartsIn NonePass isHexDigit hexValue)

def isWhite (c : Char) : Bool :=
  c ∈ whites

def skipWhite (s : List Char) : List Char :=
  s.dropWhile isWhite

theorem length_skipWhite_le (s : List Char) : (skipWhite s).length ≤ s.length :=
  Reader.length_dropWhile_le isWhite s

def isNumeralCharacter (c : Char) : Bool :=
  c.isDigit || c ∈ ['-', '+', '.', 'e', 'E']

def isWhole (ds : List Char) : Bool :=
  ds = ['0'] || (ds ≠ [] && ds.head? ≠ some '0')

-- One of some characters may stand first, and is left out.
def skipSign (signs : List Char) : List Char → List Char
  | []     => []
  | c :: s => if c ∈ signs then s else c :: s

def isExponent : List Char → Bool
  | []     => true
  | c :: s =>
    let ds := skipSign ['+', '-'] s
    c ∈ ['e', 'E'] && ds ≠ [] && ds.all Char.isDigit

def isFractionAndExponent (s : List Char) : Bool :=
  if s.head? = some '.' then
    s.tail.takeWhile Char.isDigit ≠ [] && isExponent (s.tail.dropWhile Char.isDigit)
  else isExponent s

def isNumeral (s : List Char) : Bool :=
  let s := skipSign ['-'] s
  isWhole (s.takeWhile Char.isDigit) && isFractionAndExponent (s.dropWhile Char.isDigit)

def number? (s : List Char) : Option (Json × List Char) :=
  let n := s.takeWhile isNumeralCharacter
  if isNumeral n then some (.number (String.ofList n), s.dropWhile isNumeralCharacter) else none

def codeUnit? : List Char → Option (Nat × List Char)
  | a :: b :: c :: d :: rest =>
    if isHexDigit a && isHexDigit b && isHexDigit c && isHexDigit d then
      some (16 * (16 * (16 * hexValue a + hexValue b) + hexValue c) + hexValue d, rest)
    else none
  | _ => none

-- What stands behind the escape of a code unit decides whether it is one of a pair.
def unicode? (s : List Char) : Option (Char × List Char) :=
  match codeUnit? s with
  | none           => none
  | some (n, rest) =>
    if n < 0xD800 ∨ 0xE000 ≤ n then some (Char.ofNat n, rest)
    else
      match rest with
      | '\\' :: 'u' :: s =>
        match codeUnit? s with
        | none             => none
        | some (low, rest) =>
          if n < 0xDC00 ∧ 0xDC00 ≤ low ∧ low < 0xE000 then
            some (Char.ofNat (0x10000 + 0x400 * (n - 0xD800) + (low - 0xDC00)), rest)
          else none
      | _ => none

def escape? : List Char → Option (Char × List Char)
  | []          => none
  | letter :: s => if letter = 'u' then unicode? s else (escapes.lookup letter).map (·, s)

def character? : List Char → Option (Char × List Char)
  | []     => none
  | c :: s =>
    if c = '\\' then escape? s
    else if 0x20 ≤ c.toNat ∧ c ≠ '"' then some (c, s)
    else none

-- Each character takes some of the text, which the checks of lengths in this reader are about.
def characters? (s : List Char) : Option (List Char × List Char) :=
  if s.head? = some '"' then some ([], s.tail)
  else
    match character? s with
    | none           => none
    | some (c, rest) =>
      if rest.length < s.length then (characters? rest).map fun (cs, rest) => (c :: cs, rest)
      else none
termination_by s.length

mutual

def value? (s : List Char) : Option (Json × List Char) :=
  match s with
  | 'n' :: 'u' :: 'l' :: 'l' :: rest        => some (.null, rest)
  | 't' :: 'r' :: 'u' :: 'e' :: rest        => some (.boolean true, rest)
  | 'f' :: 'a' :: 'l' :: 's' :: 'e' :: rest => some (.boolean false, rest)
  | '"' :: s => (characters? s).map fun (cs, rest) => (.text (String.ofList cs), rest)
  | '[' :: s =>
    if (skipWhite s).head? = some ']' then some (.list [], (skipWhite s).tail)
    else (elements? s).map fun (items, rest) => (.list items, rest)
  | '\x7b' :: s =>
    if (skipWhite s).head? = some '\x7d' then some (.object [], (skipWhite s).tail)
    else (members? s).map fun (fields, rest) => (.object fields, rest)
  | s => number? s
termination_by (s.length, 0)

def elements? (s : List Char) : Option (List Json × List Char) :=
  match value? (skipWhite s) with
  | none           => none
  | some (v, rest) =>
    match skipWhite rest with
    | ']' :: rest => some ([v], rest)
    | ',' :: rest =>
      if rest.length < s.length then (elements? rest).map fun (items, rest) => (v :: items, rest)
      else none
    | _ => none
termination_by (s.length, 1)
decreasing_by
  · have := length_skipWhite_le s
    simp [Prod.lex_def]
    omega
  · simp [Prod.lex_def, *]

def member? (s : List Char) : Option ((String × Json) × List Char) :=
  match skipWhite s with
  | '"' :: s₁ =>
    match characters? s₁ with
    | none            => none
    | some (name, s₂) =>
      match skipWhite s₂ with
      | ':' :: s₃ =>
        if s₃.length < s.length then
          (value? (skipWhite s₃)).map fun (v, rest) => ((String.ofList name, v), rest)
        else none
      | _ => none
  | _ => none
termination_by (s.length, 0)
decreasing_by
  have := length_skipWhite_le s₃
  simp [Prod.lex_def]
  omega

def members? (s : List Char) : Option (List (String × Json) × List Char) :=
  match member? s with
  | none               => none
  | some (field, rest) =>
    match skipWhite rest with
    | '\x7d' :: rest => some ([field], rest)
    | ',' :: rest =>
      if rest.length < s.length then
        (members? rest).map fun (fields, rest) => (field :: fields, rest)
      else none
    | _ => none
termination_by (s.length, 1)

end

def read? (text : String) : Option Json :=
  match value? (skipWhite text.toList) with
  | none           => none
  | some (v, rest) => if skipWhite rest = [] then some v else none

section

variable {s rest ds fs es cs : List Char}

theorem skipWhite_complete (h : White s rest) (hs : Stops isWhite rest) : skipWhite s = rest := by
  induction h with
  | nil => exact hs.dropWhile_eq
  | cons hc _ ih =>
    rw [skipWhite, List.dropWhile_cons_of_pos (by simpa [isWhite] using hc)]
    exact ih hs

theorem White.length_le (h : White s rest) : rest.length ≤ s.length := by
  induction h with
  | nil         => exact Nat.le_refl _
  | cons _ _ ih => exact Nat.le_succ_of_le ih

-- Numerals, part by part.

theorem skipSign_of_mem {c : Char} (h : c ∈ cs) : skipSign cs (c :: s) = s :=
  if_pos h

-- Digits are no signs.
theorem skipSign_of_digits (hd : Digits ds) (hc : NonePass Char.isDigit cs) :
    skipSign cs (ds ++ rest) = ds ++ rest := by
  have ⟨hn, hd⟩ := hd
  cases ds with
  | nil      => exact absurd rfl hn
  | cons d _ => exact if_neg fun hm => absurd (hd d List.mem_cons_self) (by simp [hc.of_mem hm])

theorem exponent_stops (h : Exponent es) : Stops Char.isDigit es := by
  have marks : NonePass Char.isDigit ['e', 'E'] := rfl
  cases h with
  | none    => exact .nil
  | mark hc => exact Stops.cons_iff.mpr <| marks.of_mem hc

theorem fraction_stops (hf : Fraction fs) (he : Exponent es) : Stops Char.isDigit (fs ++ es) := by
  cases hf with
  | none  => exact exponent_stops he
  | point => exact Stops.cons_iff.mpr rfl

-- A sign that need not be there, before digits.
theorem skipSign_complete {sign : List Char} (hs : sign = [] ∨ ∃ c ∈ cs, sign = [c])
    (hd : Digits ds) (hc : NonePass Char.isDigit cs) :
    skipSign cs (sign ++ (ds ++ rest)) = ds ++ rest := by
  cases hs with
  | inl he =>
    rw [he, List.nil_append]
    exact skipSign_of_digits hd hc
  | inr hm =>
    have ⟨_, hm, he⟩ := hm
    rw [he]
    exact skipSign_of_mem hm

theorem isExponent_complete (h : Exponent es) : isExponent es := by
  cases h with
  | none => rfl
  | @mark c sign ds hc hs hd =>
    have hs : sign = [] ∨ ∃ c ∈ ['+', '-'], sign = [c] := by simpa using hs
    have skip := @skipSign_complete [] _ _ _ hs hd rfl
    rw [List.append_nil] at skip
    have ⟨hn, hd⟩ := hd
    simp only [isExponent, skip, hc, hn, decide_true, Bool.true_and, ne_eq, not_false_eq_true]
    exact List.all_eq_true.mpr hd

theorem isFractionAndExponent_complete (hf : Fraction fs) (he : Exponent es) :
    isFractionAndExponent (fs ++ es) := by
  cases hf with
  | none =>
    have hn : es.head? ≠ some '.' := by
      cases he with
      | none    => nofun
      | mark hc => exact fun he => absurd (Option.some.inj he ▸ hc) (by decide)
    exact (if_neg hn).trans <| isExponent_complete he
  | @point ds hd =>
    have ⟨hn, hd⟩ := hd
    have hs := exponent_stops he
    rw [isFractionAndExponent, List.cons_append, if_pos (by simp), List.tail_cons,
      hs.takeWhile_append hd, hs.dropWhile_append hd]
    simp [hn, isExponent_complete he]

theorem Whole.digits (h : Whole ds) : Digits ds := by
  cases h with
  | inl he => exact he ▸ ⟨nofun, List.forall_mem_singleton.mpr rfl⟩
  | inr hd => exact hd.left

theorem isWhole_complete (h : Whole ds) : isWhole ds := by
  cases h with
  | inl he => simp [isWhole, he]
  | inr hd => simp [isWhole, hd.left.left, hd.right]

theorem isNumeral_complete {n : List Char} (h : Numeral n) : isNumeral n := by
  cases h with
  | @intro sign _ hs hm =>
    have .intro hw hf he := hm
    have hs : sign = [] ∨ ∃ c ∈ ['-'], sign = [c] := by simpa using hs
    have stops := fraction_stops hf he
    have hd := hw.digits
    rw [isNumeral, skipSign_complete hs hd rfl, stops.takeWhile_append hd.right,
      stops.dropWhile_append hd.right, isWhole_complete hw, isFractionAndExponent_complete hf he]
    rfl

theorem isNumeralCharacter_of_numeral {n : List Char} (h : Numeral n) :
    ∀ c ∈ n, isNumeralCharacter c := by
  have digits {ds} (hd : Digits ds) : ∀ c ∈ ds, isNumeralCharacter c :=
    fun c hc => by simp [isNumeralCharacter, hd.right c hc]
  have marks : ∀ c ∈ ['e', 'E'], isNumeralCharacter c := List.all_eq_true.mp rfl
  have minus : ∀ sign ∈ [[], ['-']], ∀ c ∈ sign, isNumeralCharacter c := by
    simp [isNumeralCharacter]
  have signs : ∀ sign ∈ [[], ['+'], ['-']], ∀ c ∈ sign, isNumeralCharacter c := by
    simp [isNumeralCharacter]
  cases h with
  | @intro sign _ hs hm =>
    have .intro hw hf he := hm
    simp only [List.forall_mem_append]
    refine ⟨minus sign hs, digits hw.digits, ?fraction, ?exponent⟩
    case fraction =>
      cases hf with
      | none     => nofun
      | point hd => exact List.forall_mem_cons.mpr ⟨rfl, digits hd⟩
    case exponent =>
      cases he with
      | none => nofun
      | mark hc hs hd =>
        refine List.forall_mem_cons.mpr ⟨marks _ hc, ?_⟩
        exact List.forall_mem_append.mpr ⟨signs _ hs, digits hd⟩

theorem number?_complete {n : List Char} (h : Numeral n) (hs : Stops isNumeralCharacter rest) :
    number? (n ++ rest) = some (.number (String.ofList n), rest) := by
  have hc := isNumeralCharacter_of_numeral h
  rw [number?, hs.takeWhile_append hc, hs.dropWhile_append hc, if_pos (isNumeral_complete h)]

-- Texts, character by character.

theorem codeUnit?_complete {n : Nat} (h : CodeUnit s n rest) : codeUnit? s = some (n, rest) := by
  cases h with
  | intro ha hb hc hd =>
    have ⟨ha, hi⟩ := Reader.hexDigit_complete ha
    have ⟨hb, hj⟩ := Reader.hexDigit_complete hb
    have ⟨hc, hk⟩ := Reader.hexDigit_complete hc
    have ⟨hd, hl⟩ := Reader.hexDigit_complete hd
    simp [codeUnit?, ha, hb, hc, hd, hi, hj, hk, hl]

theorem unicode?_pair {high low : Nat} {s₁ : List Char} (hu : CodeUnit s high ('\\' :: 'u' :: s₁))
    (hu' : CodeUnit s₁ low rest) (hh : 0xD800 ≤ high ∧ high < 0xDC00)
    (hl : 0xDC00 ≤ low ∧ low < 0xE000) :
    unicode? s = some (Char.ofNat (0x10000 + 0x400 * (high - 0xD800) + (low - 0xDC00)), rest) := by
  have hn : ¬(high < 0xD800 ∨ 0xE000 ≤ high) := by omega
  rw [unicode?, codeUnit?_complete hu]
  refine (if_neg hn).trans ?_
  simp only [codeUnit?_complete hu', hh.right, hl.left, hl.right, and_self, if_true]

theorem character?_complete {c : Char} (h : Character s c rest) : character? s = some (c, rest) := by
  cases h with
  | plain hc hq hb => exact (if_neg hb).trans <| if_pos ⟨hc, hq⟩
  | @letter letter _ _ hm =>
    have all : ∀ e ∈ escapes, e.1 ≠ 'u' ∧ escapes.lookup e.1 = some e.2 := by decide
    have ⟨hu, hl⟩ := all _ hm
    rw [character?, if_pos rfl, escape?, if_neg hu, hl]
    rfl
  | code hu hn =>
    rw [character?, if_pos rfl, escape?, if_pos rfl, unicode?, codeUnit?_complete hu]
    exact if_pos hn
  | pair hu hu' hh hl =>
    rw [character?, if_pos rfl, escape?, if_pos rfl]
    exact unicode?_pair hu hu' hh hl

theorem CodeUnit.length_lt {n : Nat} (h : CodeUnit s n rest) : rest.length < s.length := by
  cases h
  simp only [List.length_cons]
  omega

theorem Character.length_lt {c : Char} (h : Character s c rest) : rest.length < s.length := by
  cases h with
  | plain   => exact Nat.lt_succ_self _
  | letter  => exact Nat.lt_succ_of_lt <| Nat.lt_succ_self _
  | code hu =>
    have := hu.length_lt
    simp only [List.length_cons]
    omega
  | pair hu hu' =>
    have := hu.length_lt
    have := hu'.length_lt
    simp only [List.length_cons] at *
    omega

theorem Characters.length_lt (h : Characters s cs rest) : rest.length < s.length := by
  induction h with
  | nil          => simp
  | cons hc _ ih => exact Nat.lt_trans ih hc.length_lt

-- No character begins with the quotation mark that ends a text.
theorem Character.not_quote {c : Char} (h : Character s c rest) : s.head? ≠ some '"' := by
  cases h with
  | plain _ hq => exact fun he => hq <| Option.some.inj he
  | _          => exact fun he => absurd (Option.some.inj he) (by decide)

theorem characters?_complete (h : Characters s cs rest) : characters? s = some (cs, rest) := by
  induction h with
  | nil          => rw [characters?, List.head?_cons, if_pos rfl]; rfl
  | cons hc _ ih =>
    rw [characters?, if_neg hc.not_quote, character?_complete hc]
    simp only [hc.length_lt, if_true, ih]
    rfl

-- Values. What is left behind one does not go on with it.

theorem White.stops (h : White s rest) (hs : Stops isNumeralCharacter rest) :
    Stops isNumeralCharacter s := by
  have whites : NonePass isNumeralCharacter whites := rfl
  cases h with
  | nil     => exact hs
  | cons hc => exact Stops.cons_iff.mpr <| whites.of_mem hc

theorem Numeral.head {n : List Char} (h : Numeral n) :
    ∃ c n', n = c :: n' ∧ (c = '-' ∨ c.isDigit) := by
  cases h with
  | @intro sign _ hs hm =>
    have @Magnitude.intro whole _ _ hw _ _ := hm
    have ⟨hn, hd⟩ := hw.digits
    cases List.mem_cons.mp hs with
    | inl he =>
      cases whole with
      | nil      => exact absurd rfl hn
      | cons d _ => exact he ▸ ⟨d, _, rfl, .inr <| hd d List.mem_cons_self⟩
    | inr hs => exact List.mem_singleton.mp hs ▸ ⟨'-', _, rfl, .inl rfl⟩

theorem not_mem_of_isDigit {c : Char} (hd : c.isDigit) (hc : NonePass Char.isDigit cs) : c ∉ cs :=
  fun hm => absurd hd (by simp [hc.of_mem hm])

-- No value begins with white space or with what closes a list.
theorem Value.head {v : Json} (h : Value s v rest) :
    ∃ c s', s = c :: s' ∧ isWhite c = false ∧ c ≠ ']' := by
  cases h with
  | number hn =>
    have ⟨c, n, he, hc⟩ := hn.head
    refine ⟨c, n ++ rest, he ▸ rfl, ?_⟩
    cases hc with
    | inl he => exact he ▸ by decide
    | inr hd =>
      have hw : c ∉ whites := not_mem_of_isDigit hd rfl
      exact ⟨decide_eq_false hw, fun he => absurd hd (by simp [he])⟩
  | _ => exact ⟨_, _, rfl, rfl, by decide⟩

theorem value?_of_numeral {c : Char} (hc : c = '-' ∨ c.isDigit) :
    value? (c :: s) = number? (c :: s) := by
  have hn : c ∉ ['n', 't', 'f', '"', '[', '\x7b'] := by
    cases hc with
    | inl he => exact he ▸ by decide
    | inr hd => exact not_mem_of_isDigit hd rfl
  simp only [List.mem_cons, not_or] at hn
  rw [value?.eq_def]
  split
  case h_7 => rfl
  all_goals next h => exact absurd (List.head_eq_of_cons_eq h) (by simp [hn])

theorem length_lt_of_white {c : Char} {s₁ s₂ : List Char} (h : s₁.length < s.length)
    (hw : White s₁ (c :: s₂)) : s₂.length < s.length :=
  Nat.lt_trans (Nat.lt_of_succ_le hw.length_le) h

theorem length_lt_of_name {c : Char} {s₁ s₂ s₃ : List Char} (hw : White s ('"' :: s₁))
    (hc : Characters s₁ cs s₂) (hw' : White s₂ (c :: s₃)) : s₃.length < s.length :=
  length_lt_of_white (Nat.lt_of_lt_of_le hc.length_lt <| Nat.le_of_succ_le hw.length_le) hw'

mutual

theorem Value.length_lt {s rest : List Char} {v : Json} (h : Value s v rest) :
    rest.length < s.length := by
  match h with
  | .number hn =>
    have ⟨c, n, he, _⟩ := hn.head
    rw [he, List.cons_append, List.length_cons, List.length_append]
    omega
  | .text hc        => exact Nat.lt_succ_of_lt hc.length_lt
  | .emptyList hw   => exact length_lt_of_white (Nat.lt_succ_self _) hw
  | .emptyObject hw => exact length_lt_of_white (Nat.lt_succ_self _) hw
  | .list he        => exact Nat.lt_succ_of_lt he.length_lt
  | .object hm      => exact Nat.lt_succ_of_lt hm.length_lt
  | .null | .isTrue | .isFalse =>
    simp only [List.length_cons]
    omega

theorem Element.length_lt {s rest : List Char} {v : Json} (h : Element s v rest) :
    rest.length < s.length := by
  match h with
  | .intro hw hv => exact Nat.lt_of_lt_of_le hv.length_lt hw.length_le

theorem Elements.length_lt {s rest : List Char} {items : List Json} (h : Elements s items rest) :
    rest.length < s.length := by
  match h with
  | .last he hw    => exact length_lt_of_white he.length_lt hw
  | .cons he hw hr => exact Nat.lt_trans hr.length_lt <| length_lt_of_white he.length_lt hw

theorem Member.length_lt {s rest : List Char} {field : String × Json} (h : Member s field rest) :
    rest.length < s.length := by
  match h with
  | .intro hw hc hw' he =>
    exact Nat.lt_trans he.length_lt <| length_lt_of_name hw hc hw'

theorem Members.length_lt {s rest : List Char} {fields : List (String × Json)}
    (h : Members s fields rest) : rest.length < s.length := by
  match h with
  | .last hm hw    => exact length_lt_of_white hm.length_lt hw
  | .cons hm hw hr => exact Nat.lt_trans hr.length_lt <| length_lt_of_white hm.length_lt hw

end

theorem Value.skipWhite {v : Json} {s₁ : List Char} (hv : Value s₁ v rest) (hw : White s s₁) :
    skipWhite s = s₁ := by
  have ⟨_, _, he, hc, _⟩ := hv.head
  exact skipWhite_complete hw <| he ▸ Stops.cons_iff.mpr hc

-- The first element of a list is none of what closes the list, and the same goes for members.

theorem Elements.not_closing {items : List Json} (h : Elements s items rest) :
    (skipWhite s).head? ≠ some ']' := by
  have element {v : Json} {s₁ : List Char} (he : Element s v s₁) :
      (skipWhite s).head? ≠ some ']' := by
    cases he with
    | intro hw hv =>
      have ⟨_, _, he, _, hn⟩ := hv.head
      rw [hv.skipWhite hw, he]
      exact fun h => hn <| Option.some.inj h
  cases h with
  | last he => exact element he
  | cons he => exact element he

theorem Members.not_closing {fields : List (String × Json)} (h : Members s fields rest) :
    (skipWhite s).head? ≠ some '\x7d' := by
  have member {field : String × Json} {s₁ : List Char} (hm : Member s field s₁) :
      (skipWhite s).head? ≠ some '\x7d' := by
    cases hm with
    | intro hw => simp [skipWhite_complete hw (Stops.cons_iff.mpr rfl)]
  cases h with
  | last hm => exact member hm
  | cons hm => exact member hm

-- By recursion over what derives a text. Each call of the reader is for a part of it.

mutual

theorem value?_complete {s rest : List Char} {v : Json} (h : Value s v rest)
    (hs : Stops isNumeralCharacter rest) : value? s = some (v, rest) := by
  match h with
  | .null    => rw [value?]
  | .isTrue  => rw [value?]
  | .isFalse => rw [value?]
  | .number hn =>
    have hc := number?_complete hn hs
    have ⟨c, n, he, hd⟩ := hn.head
    rw [he] at hc ⊢
    exact (value?_of_numeral hd).trans hc
  | .text hc =>
    rw [value?, characters?_complete hc]
    rfl
  | .emptyList hw =>
    rw [value?, skipWhite_complete hw (Stops.cons_iff.mpr rfl)]
    rfl
  | .list he =>
    rw [value?, if_neg he.not_closing, elements?_complete he]
    rfl
  | .emptyObject hw =>
    rw [value?, skipWhite_complete hw (Stops.cons_iff.mpr rfl)]
    rfl
  | .object hm =>
    rw [value?, if_neg hm.not_closing, members?_complete hm]
    rfl

theorem elements?_complete {s rest : List Char} {items : List Json} (h : Elements s items rest) :
    elements? s = some (items, rest) := by
  match h with
  | .last (.intro hw hv) hc =>
    rw [elements?, hv.skipWhite hw, value?_complete hv (hc.stops <| Stops.cons_iff.mpr rfl)]
    simp only [skipWhite_complete hc (Stops.cons_iff.mpr rfl)]
  | .cons (.intro hw hv) hc hr =>
    have hl := length_lt_of_white (Element.intro hw hv).length_lt hc
    rw [elements?, hv.skipWhite hw, value?_complete hv (hc.stops <| Stops.cons_iff.mpr rfl)]
    simp only [skipWhite_complete hc (Stops.cons_iff.mpr rfl), elements?_complete hr, hl, if_true,
      Option.map_some]

theorem member?_complete {s rest : List Char} {field : String × Json} (h : Member s field rest)
    (hs : Stops isNumeralCharacter rest) : member? s = some (field, rest) := by
  match h with
  | .intro hw hc hw' (.intro hw'' hv) =>
    have hl := length_lt_of_name hw hc hw'
    rw [member?, skipWhite_complete hw (Stops.cons_iff.mpr rfl)]
    simp only [characters?_complete hc, skipWhite_complete hw' (Stops.cons_iff.mpr rfl), hl, if_true,
      hv.skipWhite hw'', value?_complete hv hs, Option.map_some]

theorem members?_complete {s rest : List Char} {fields : List (String × Json)}
    (h : Members s fields rest) : members? s = some (fields, rest) := by
  match h with
  | .last hm hc =>
    rw [members?, member?_complete hm (hc.stops <| Stops.cons_iff.mpr rfl)]
    simp only [skipWhite_complete hc (Stops.cons_iff.mpr rfl)]
  | .cons hm hc hr =>
    have hl := length_lt_of_white hm.length_lt hc
    rw [members?, member?_complete hm (hc.stops <| Stops.cons_iff.mpr rfl)]
    simp only [skipWhite_complete hc (Stops.cons_iff.mpr rfl), members?_complete hr, hl, if_true,
      Option.map_some]

end

theorem read?_of_denotes {text : String} {v : Json} (h : Denotes text v) : read? text = some v := by
  have ⟨rest, .intro hw hv, hr⟩ := h
  rw [read?, hv.skipWhite hw, value?_complete hv (hr.stops .nil)]
  exact if_pos <| skipWhite_complete hr .nil

end

end Json

end Palette
