import Mathlib.Logic.Relation
import Palette.Proofs.Grammar.Exactness

-- What is tried while a text is read. A reader replies with one fault at most; here are the faults of
-- all alternatives and optional parts that gave up on the way, whether or not the reply tells of them.

namespace Palette

namespace Reader

variable {s rest : List Char}

def isWhite (c : Char) : Bool :=
  isBlank c || isLineBreak c

-- White space, of which there must be some.
def spaces : Reader Unit := do
  let _ ← many1 isWhite []
  return ()

-- One comment. Where a lone carriage return spoils it, it fails behind its slashes.
def comment : Reader Unit := fun s =>
  match afterComment? s with
  | some rest => .accepted () rest
  | none => .rejected ⟨if ['/', '/'] <+: s then s.drop 2 else s, []⟩

-- As often as the reader accepts.
def many (p : Reader Unit) (s : List Char) : Reply Unit :=
  match p s with
  | .rejected _ => .accepted () s
  | .aborted f => .aborted f
  | .accepted _ rest => if rest.length < s.length then many p rest else .rejected ⟨rest, []⟩
termination_by s.length

theorem many_of_rejected {p : Reader Unit} {f : Fault} (h : p s = .rejected f) :
    many p s = .accepted () s := by
  rw [many, h]

theorem many_of_accepted {p : Reader Unit} {u : Unit} (h : p s = .accepted u rest)
    (hl : rest.length < s.length) : many p s = many p rest := by
  rw [many, h]
  exact if_pos hl

theorem comment_of_some (h : afterComment? s = some rest) : comment s = .accepted () rest := by
  rw [comment, h]

theorem comment_of_none (h : afterComment? s = none) : Rejects comment s := by
  rw [Rejects, comment, h]
  exact ⟨_, rfl⟩

theorem lineTail_eq : lineTail = (do blanks; let _ ← optional comment; return ()) := by
  funext s
  show lineTail s = (optional comment >>= fun _ => pure ()) (s.dropWhile isBlank)
  cases h : afterComment? (s.dropWhile isBlank) with
  | some rest => simp [lineTail, h, bind, optional, comment_of_some h, pure]
  | none =>
    obtain ⟨_, hc⟩ := comment_of_none h
    rw [bind_of_accepted <| optional_of_rejected hc]
    simp [lineTail, h, pure]

theorem spaces_of_white {c : Char} (h : isWhite c) :
    spaces (c :: s) = .accepted () (s.dropWhile isWhite) := by
  simp [spaces, many1, h, bind, pure]

theorem spaces_of_stops (h : Stops isWhite s) : spaces s = .rejected ⟨s, []⟩ := by
  simp [spaces, many1, h.takeWhile_eq_nil, bind]

theorem many_of_white {c : Char} (h : isWhite c) :
    many (orElse spaces comment) (c :: s) = many (orElse spaces comment) s := by
  have hd {c s} (h : isWhite c) : many (orElse spaces comment) (c :: s) =
      many (orElse spaces comment) (s.dropWhile isWhite) := by
    refine many_of_accepted (orElse_eq_accepted.mpr <| .inl <| spaces_of_white h) ?_
    exact Nat.lt_succ_of_le <| length_dropWhile_le isWhite s
  rw [hd h]
  cases s
  case nil => rfl
  case cons d s =>
    rw [List.dropWhile_cons]
    split
    case isTrue h  => rw [hd h]
    case isFalse h => rfl

-- White space goes in runs here, and one character at a time there.
theorem trivia_eq : trivia = many (orElse spaces comment) := by
  funext s
  have stop {s} (h : Stops isWhite s) (ha : afterComment? s = none) :
      Reply.accepted () s = many (orElse spaces comment) s :=
    have ⟨_, hc⟩ := comment_of_none ha
    (many_of_rejected <| orElse_of_rejected (spaces_of_stops h) hc).symm
  show Reply.accepted () (skipTrivia s) = _
  fun_induction skipTrivia s
  case case1         => exact stop .nil rfl
  case case2 hc ih   => rw [ih, many_of_white hc]
  case case3 c s hc _ ha ih =>
    have hs : Stops isWhite (c :: s) := Stops.cons_iff.mpr <| Bool.eq_false_iff.mpr hc
    rw [ih]
    refine (many_of_accepted (u := ()) ?_ <| afterComment?_length ha).symm
    exact orElse_eq_accepted.mpr <| .inr ⟨⟨_, spaces_of_stops hs⟩, comment_of_some ha⟩
  case case4 hc ha   => exact stop (Stops.cons_iff.mpr <| Bool.eq_false_iff.mpr hc) ha

-- An item and its end.
abbrev ended (item : Reader α) (closer : Reader Unit) : Reader α := do
  let a ← item
  itemEnd closer
  return a

theorem ended_eq_accepted {item : Reader α} {closer : Reader Unit} {a : α} :
    ended item closer s = .accepted a rest ↔
      ∃ s₁ u, item s = .accepted a s₁ ∧ itemEnd closer s₁ = .accepted u rest := by
  simp only [bind_eq_accepted, pure_eq_accepted]
  constructor
  case mp =>
    rintro ⟨_, s₁, hi, u, _, he, rfl, rfl⟩
    exact ⟨s₁, u, hi, he⟩
  case mpr =>
    rintro ⟨s₁, u, hi, he⟩
    exact ⟨a, s₁, hi, u, rest, he, rfl, rfl⟩

-- How a reader is put together of others.
inductive Parts : {α : Type} → Reader α → Type 1
  | whole (p : Reader α) : Parts p
  | eq : p = q → Parts q → Parts p
  | bind {next : α → Reader β} : Parts p → (∀ a, Parts (next a)) → Parts (p >>= next)
  | orElse : Parts p → Parts q → Parts (orElse p q)
  | commit : Parts p → Parts (commit p)
  | optional : Parts p → Parts (optional p)
  | peek : Parts p → Parts (peek p)
  | refine {f : α → Except Expectation β} : Parts p → Parts (Reader.refine p f)
  | many : Parts p → Parts (many p)
  | manyTill {item : Reader α} {stop : Reader β} : Parts item → Parts stop → Parts (manyTill item stop)

namespace Parts

-- From one round of a repetition to the next.
def Round (p : Reader α) (s t : List Char) : Prop :=
  ∃ a, p s = .accepted a t ∧ t.length < s.length

-- An alternative or an optional part gave up at the fault. Where items are read up to a stop, the
-- stop is an alternative to another item.
def GaveUp {p : Reader α} : Parts p → List Char → Fault → Prop
  | whole _, _, _ => False
  | eq _ b, s, f => b.GaveUp s f
  | @bind _ _ p _ b c, s, f => b.GaveUp s f ∨ ∃ a rest, p s = .accepted a rest ∧ (c a).GaveUp rest f
  | @orElse _ p q b c, s, f =>
    b.GaveUp s f ∨ p s = .rejected f ∨ Rejects p s ∧ (c.GaveUp s f ∨ q s = .rejected f)
  | commit b, s, f => b.GaveUp s f
  | @optional _ p b, s, f => b.GaveUp s f ∨ p s = .rejected f
  | peek b, s, f => b.GaveUp s f
  | refine b, s, f => b.GaveUp s f
  | @many p b, s, f => ∃ t, Relation.ReflTransGen (Round p) s t ∧ b.GaveUp t f
  | @manyTill _ _ item stop b c, s, f =>
    ∃ t, Relation.ReflTransGen (fun s t => Rejects stop s ∧ Round item s t) s t ∧
      (c.GaveUp t f ∨ stop t = .rejected f ∨ Rejects stop t ∧ b.GaveUp t f)

namespace GaveUp

variable {α β : Type} {p q : Reader α} {next : α → Reader β} {b : Parts p} {c : Parts q}
variable {d : ∀ a, Parts (next a)} {f : Fault}

theorem first (h : b.GaveUp s f) : (bind b d).GaveUp s f :=
  .inl h

theorem behind {a : α} (hp : p s = .accepted a rest) (h : (d a).GaveUp rest f) :
    (bind b d).GaveUp s f :=
  .inr ⟨a, rest, hp, h⟩

theorem left (h : b.GaveUp s f) : (orElse b c).GaveUp s f :=
  .inl h

theorem right (hp : Rejects p s) (h : c.GaveUp s f) : (orElse b c).GaveUp s f :=
  .inr <| .inr ⟨hp, .inl h⟩

theorem second (hp : Rejects p s) (h : q s = .rejected f) : (orElse b c).GaveUp s f :=
  .inr <| .inr ⟨hp, .inr h⟩

theorem optional (h : p s = .rejected f) : b.optional.GaveUp s f :=
  .inr h

theorem item {stop : Reader β} {c : Parts stop} {t : List Char}
    (hr : Relation.ReflTransGen (fun s t => Rejects stop s ∧ Round p s t) s t)
    (hs : Rejects stop t) (h : b.GaveUp t f) : (manyTill b c).GaveUp s f :=
  ⟨t, hr, .inr <| .inr ⟨hs, h⟩⟩

end GaveUp

theorem manyTill_of_rounds {α β : Type} {item : Reader α} {stop : Reader β} {t : List Char}
    {f : Fault} (h : Relation.ReflTransGen (fun s t => Rejects stop s ∧ Round item s t) s t)
    (ht : Reader.manyTill item stop t = .rejected f) :
    Reader.manyTill item stop s = .rejected f := by
  induction h using Relation.ReflTransGen.head_induction_on with
  | refl => exact ht
  | head hs _ ih =>
    obtain ⟨hs, _, hi, hl⟩ := hs
    rw [manyTill_step hs hi hl, ih]
    rfl

-- The readers of a sheet. What makes no attempts of its own is taken as a whole.

def map {f : α → β} {p : Reader α} (b : Parts p) : Parts (f <$> p) :=
  .bind b fun _ => .whole _

def trivia : Parts Reader.trivia :=
  .eq trivia_eq <| .many <| .orElse (.whole spaces) (.whole comment)

def lineTail : Parts Reader.lineTail :=
  .eq lineTail_eq <| .bind (.whole blanks) fun _ => .bind (.optional <| .whole comment) fun _ =>
    .whole _

def itemEnd (closer : Reader Unit) : Parts (Reader.itemEnd closer) :=
  .bind lineTail fun _ => .orElse (.bind (.whole lineBreak) fun _ => trivia) (.peek <| .whole closer)

def opacity : Parts Reader.opacity :=
  .bind (.optional <| .whole _) fun _ => .whole _

def hexColor : Parts Reader.hexColor :=
  .bind (.whole _) fun _ => .bind (.whole _) fun _ => .bind opacity fun _ => .whole _

def reference : Parts Reader.reference :=
  .bind (.whole _) fun _ => .bind (.whole _) fun _ => .bind opacity fun _ => .whole _

def slot : Parts Reader.slot :=
  .orElse (.orElse hexColor.map (map <| .whole channelColor)) reference.map

def labelled {p : Reader α} (b : Parts p) : Parts (Reader.labelled p) :=
  .bind (.whole _) fun _ => .bind (.whole _) fun _ => .bind b.commit fun _ => .whole _

def labelledSlots : Parts Reader.labelledSlots :=
  .bind slot.labelled fun _ => .bind (.whole _) fun _ => .bind slot.labelled fun _ => .whole _

def pair : Parts Reader.pair :=
  .bind (.whole _) fun _ => .commit <| .bind (.whole _) fun _ => .refine labelledSlots

def value : Parts Reader.value :=
  .orElse slot.map pair

def declaration : Parts Reader.declaration :=
  .bind value.labelled fun _ => .whole _

def variableDeclaration : Parts Reader.variableDeclaration :=
  .bind (.whole _) fun _ => .commit <| .bind (.whole _) fun _ => .bind (.whole _) fun _ =>
    .bind value fun _ => .whole _

def ended {item : Reader α} (b : Parts item) (closer : Reader Unit) :
    Parts (Reader.ended item closer) :=
  .bind b fun _ => .bind (itemEnd closer) fun _ => .whole _

def group : (levels : Nat) → Parts (Reader.group levels)
  | 0          => .whole _
  | levels + 1 =>
    .bind (.whole _) fun _ => .bind (.commit <| .bind trivia fun _ =>
      .manyTill (ended (.orElse (group levels) declaration.map) _) (.whole _)) fun _ => .whole _

def topItem : Parts Reader.topItem :=
  .orElse (.orElse variableDeclaration.map (group maxNesting).map) declaration.map

def sheet : Parts Reader.sheet :=
  .bind trivia fun _ => .bind (.manyTill (ended topItem _) (.whole _)) fun _ => .whole _

end Parts

end Reader

end Palette
