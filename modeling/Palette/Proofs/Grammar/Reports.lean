import Palette.Proofs.Grammar.Attempts

-- What a reply tells of the attempts that were given up on the way to it: that it got as far as they
-- did, or that it overlooks them. Of how a reader is put together follows what it tells.

namespace Palette

-- The fault is reported although an attempt was given up further on.
inductive Fault.Overlooks (g f : Fault) : Prop
  | labels {first second : String × Slot} {rest : List Char} :
    Reader.labelledSlots g.rest = .accepted (first, second) rest →
    g.expected = [.lightAndDark first.1 second.1] → Overlooks g f
  | percentage : f.expected = [.character '%'] → Grammar.Digits g.rest ds f.rest → Overlooks g f
  | comment    : Reader.afterComment? g.rest = none → g.rest = '/' :: '/' :: f.rest → Overlooks g f

theorem Fault.length_merge_le_left (f g : Fault) : (f.merge g).rest.length ≤ f.rest.length := by
  unfold merge
  split
  · exact le_rfl
  · split
    · exact Nat.le_of_lt ‹_›
    · exact le_rfl

theorem Fault.length_merge_le_right (f g : Fault) : (f.merge g).rest.length ≤ g.rest.length := by
  unfold merge
  split
  · exact Nat.le_of_lt ‹_›
  · split
    · exact le_rfl
    · exact Nat.le_of_not_lt ‹_›

namespace Reply

variable {α β : Type}

-- The text that is left behind what was read, or at the fault.
def rest : Reply α → List Char
  | accepted _ rest        => rest
  | rejected f | aborted f => f.rest

def fault? : Reply α → Option Fault
  | accepted _ _           => none
  | rejected f | aborted f => some f

-- What a reply has to say of an attempt that was given up. Some attempts can be left open for now,
-- if nothing has been read behind what was accepted.
inductive Shows (L : Fault → List Char → Prop) (r : Reply α) (f : Fault) : Prop
  | reached    : r.rest.length ≤ f.rest.length → Shows L r f
  | overlooked : r.fault? = some g → g.Overlooks f → Shows L r f
  | leftOpen   : r.fault? = none → L f r.rest → Shows L r f

def Nothing : Fault → List Char → Prop :=
  fun _ _ => False

variable {r : Reply α} {s : List Char} {f g : Fault} {L M : Fault → List Char → Prop}

theorem Within.suffix (h : r.Within s) : r.rest <:+ s := by
  cases r <;> exact h

theorem rest_of_fault (h : r.fault? = some g) : r.rest = g.rest := by
  cases r <;> cases h <;> rfl

theorem rest_map {u : α → β} : (r.map u).rest = r.rest := by
  cases r <;> rfl

theorem fault?_map {u : α → β} : (r.map u).fault? = r.fault? := by
  cases r <;> rfl

namespace Shows

theorem mono (h : r.Shows L f) (hl : ∀ {rest}, L f rest → M f rest) : r.Shows M f := by
  cases h with
  | reached h       => exact .reached h
  | overlooked hg h => exact .overlooked hg h
  | leftOpen hn h   => exact .leftOpen hn <| hl h

theorem congr {r' : Reply β} (h : r.Shows L f) (hr : r'.rest = r.rest) (hf : r'.fault? = r.fault?) :
    r'.Shows L f := by
  cases h with
  | reached h       => exact .reached <| hr ▸ h
  | overlooked hg h => exact .overlooked (hf ▸ hg) h
  | leftOpen hn h   => exact .leftOpen (hf ▸ hn) <| hr ▸ h

-- A fault leaves nothing open.
theorem of_fault {r' : Reply β} (h : r.Shows L f) (hg : r.fault? = some g)
    (hg' : r'.fault? = some g) : r'.Shows M f := by
  cases h with
  | reached h       => exact .reached <| rest_of_fault hg' ▸ rest_of_fault hg ▸ h
  | overlooked hr h => exact .overlooked (hg'.trans <| hg.symm.trans hr) h
  | leftOpen hn _   => cases hn ▸ hg

-- Whoever reads on goes further, and has to settle what was left open.
theorem next {a : α} {r : Reply β} {rest : List Char} (h : (accepted a rest).Shows L f)
    (hr : r.Within rest) (hl : L f rest → r.Shows M f) : r.Shows M f := by
  cases h with
  | reached h     => exact .reached <| hr.suffix.length_le.trans h
  | overlooked hg => cases hg
  | leftOpen _ h  => exact hl h

end Shows

end Reply

namespace Reader

open Reply

variable {α β γ : Type} {p q : Reader α} {next : α → Reader β} {L M : Fault → List Char → Prop}
variable {s t rest : List Char} {f g : Fault}

-- A reader that rejects nothing but what a text begins with.
def AtStart (p : Reader α) : Prop :=
  ∀ s g, p s = .rejected g → g.rest = s

namespace AtStart

theorem character {c : Char} : AtStart (character c) :=
  fun _ _ h => (character_eq_rejected.mp h).right ▸ rfl

theorem bind (hp : AtStart p) (hn : ∀ a s, ¬Rejects (next a) s) : AtStart (p >>= next) := by
  intro s g h
  rcases bind_eq_rejected.mp h with h | ⟨a, s₁, -, h⟩
  · exact hp s g h
  · exact absurd ⟨g, h⟩ (hn a s₁)

theorem orElse (hp : AtStart p) (hq : AtStart q) : AtStart (orElse p q) := by
  intro s g h
  obtain ⟨g₁, g₂, h₁, h₂, rfl⟩ := orElse_eq_rejected.mp h
  rcases g₁.merge_rest g₂ with h | h
  · exact h.trans <| hp s g₁ h₁
  · exact h.trans <| hq s g₂ h₂

theorem map {u : α → β} (h : AtStart p) : AtStart (u <$> p) :=
  h.bind fun _ _ => not_pure_rejects

theorem peek (h : AtStart p) : AtStart (peek p) := by
  intro s g hg
  unfold Reader.peek at hg
  split at hg <;> cases hg
  exact h s _ ‹_›

end AtStart

-- Where the one reader rejects, the other one goes at least as far.
def Sooner (p : Reader α) (q : Reader β) : Prop :=
  ∀ s g, p s = .rejected g → (q s).rest.length ≤ g.rest.length

namespace Sooner

theorem of_start (hp : AtStart p) (hq : Forward q) : Sooner p q :=
  fun s g h => hp s g h ▸ (hq s).suffix.length_le

theorem orElse {r : Reader β} (hp : Sooner p r) (hq : Sooner q r) : Sooner (orElse p q) r := by
  intro s g h
  obtain ⟨g₁, g₂, h₁, h₂, rfl⟩ := orElse_eq_rejected.mp h
  rcases g₁.merge_rest g₂ with h | h
  · exact h ▸ hp s g₁ h₁
  · exact h ▸ hq s g₂ h₂

theorem map_left {u : α → γ} {q : Reader β} (h : Sooner p q) : Sooner (u <$> p) q :=
  fun s g hg => h s g <| map_eq_rejected.mp <| map_apply.symm.trans hg

theorem map_right {v : β → γ} {q : Reader β} (h : Sooner p q) : Sooner p (v <$> q) := by
  intro s g hg
  rw [map_apply, rest_map]
  exact h s g hg

end Sooner

-- A reader rejects a text without reading any of it.
def RejectsHere (p : Reader α) (s : List Char) : Prop :=
  ∃ g, p s = .rejected g ∧ g.rest = s

namespace RejectsHere

theorem of_start (h : AtStart p) (hr : Rejects p s) : RejectsHere p s :=
  hr.imp fun g hg => ⟨hg, h s g hg⟩

theorem rejects (h : RejectsHere p s) : Rejects p s :=
  h.imp fun _ => And.left

theorem bind {q : α → Reader β} (h : RejectsHere p s) : RejectsHere (p >>= q) s :=
  h.imp fun _ ⟨hg, hs⟩ => ⟨bind_of_rejected hg, hs⟩

theorem orElse (hp : RejectsHere p s) (hq : RejectsHere q s) : RejectsHere (orElse p q) s := by
  have ⟨f, hf, hs⟩ := hp
  have ⟨g, hg, hs'⟩ := hq
  refine ⟨_, orElse_of_rejected hf hg, ?_⟩
  rcases f.merge_rest g with h | h
  · exact h.trans hs
  · exact h.trans hs'

theorem manyTill {stop : Reader β} (hs : Rejects stop s) (h : RejectsHere p s) :
    RejectsHere (manyTill p stop) s :=
  h.imp fun _ ⟨hg, h⟩ => ⟨manyTill_of_rejected hs hg, h⟩

end RejectsHere

namespace Parts

-- Every attempt that is given up is behind what the reply tells, or is left open.
def Tells (L : Fault → List Char → Prop) (b : Parts p) : Prop :=
  ∀ s f, b.GaveUp s f → (p s).Shows L f

-- A rejection tells of every attempt, so that it can be compared with another one.
def Firm (b : Parts p) : Prop :=
  ∀ s f g, b.GaveUp s f → p s = .rejected g → g.rest.length ≤ f.rest.length

variable {b : Parts p} {c : Parts q} {d : ∀ a, Parts (next a)}

namespace Firm

theorem whole : Firm (.whole p) :=
  nofun

theorem of_not_rejects (h : ∀ s, ¬Rejects p s) : Firm b :=
  fun s _ g _ hg => absurd ⟨g, hg⟩ (h s)

theorem commit : Firm b.commit :=
  of_not_rejects fun _ => commit_not_rejects

theorem after (h : ∀ a, Firm (d a)) : Firm (.bind (.whole p) d) := by
  rintro s f g (⟨⟨⟩⟩ | ⟨a, rest, hp, hf⟩) hg
  exact h a rest f g hf <| (bind_of_accepted hp).symm.trans hg

theorem pure {u : α → β} (h : Firm b) : Firm (.bind b fun a => .whole (pure (u a))) := by
  rintro s f g (hf | ⟨_, _, _, ⟨⟩⟩) hg
  exact h s f g hf <| Reply.map_eq_rejected.mp <| bind_pure_eq.symm.trans hg

theorem map {u : α → β} (h : Firm b) : Firm (b.map (f := u)) :=
  h.pure

theorem orElse (hb : Firm b) (hc : Firm c) : Firm (.orElse b c) := by
  intro s f g hf hg
  obtain ⟨g₁, g₂, hp, hq, rfl⟩ := orElse_eq_rejected.mp hg
  have left : g₁.rest.length ≤ f.rest.length → (g₁.merge g₂).rest.length ≤ f.rest.length :=
    (g₁.length_merge_le_left g₂).trans
  have right : g₂.rest.length ≤ f.rest.length → (g₁.merge g₂).rest.length ≤ f.rest.length :=
    (g₁.length_merge_le_right g₂).trans
  rcases hf with h | h | ⟨-, h | h⟩
  · exact left <| hb s f g₁ h hp
  · exact left <| Reply.rejected.inj (hp.symm.trans h) ▸ le_rfl
  · exact right <| hc s f g₂ h hq
  · exact right <| Reply.rejected.inj (hq.symm.trans h) ▸ le_rfl

end Firm

namespace Tells

theorem whole : Tells L (.whole p) :=
  nofun

theorem eq {h : q = p} (hb : Tells L b) : Tells L (b.eq h) := by
  subst h
  exact hb

theorem mono (h : Tells L b) (hl : ∀ {f rest}, L f rest → M f rest) : Tells M b :=
  fun s f hf => (h s f hf).mono hl

theorem of_nothing (h : Tells Nothing b) : Tells L b :=
  h.mono nofun

theorem commit (h : Tells L b) : Tells L b.commit := by
  intro s f hf
  have := h s f hf
  cases hp : p s <;> rw [hp] at this <;> simp only [Reader.commit, hp]
  case rejected => exact this.of_fault rfl rfl
  all_goals exact this

theorem pure {u : α → β} (h : Tells L b) : Tells L (.bind b fun a => .whole (pure (u a))) := by
  rintro s f (hf | ⟨_, _, _, ⟨⟩⟩)
  exact (h s f hf).congr (bind_pure_eq ▸ rest_map) (bind_pure_eq ▸ fault?_map)

theorem map {u : α → β} (h : Tells L b) : Tells L (b.map (f := u)) :=
  h.pure

theorem after (h : ∀ a, Tells L (d a)) : Tells L (.bind (.whole p) d) := by
  rintro s f (⟨⟨⟩⟩ | ⟨a, rest, hp, hf⟩)
  exact bind_of_accepted hp ▸ h a rest f hf

theorem bind (hb : Tells L b) (hd : ∀ a, Tells M (d a)) (hn : ∀ a, Forward (next a))
    (hl : ∀ {a f rest}, L f rest → (next a rest).Shows M f) : Tells M (.bind b d) := by
  rintro s f (h | ⟨a, rest, hp, h⟩)
  case inr => exact bind_of_accepted hp ▸ hd a rest f h
  case inl =>
    have h := hb s f h
    cases hp : p s <;> rw [hp] at h
    case accepted => exact bind_of_accepted hp ▸ h.next (hn _ _) hl
    case rejected => exact bind_of_rejected hp ▸ h.of_fault rfl rfl
    case aborted  => exact bind_of_aborted hp ▸ h.of_fault rfl rfl

-- Where the first alternative rejects, the other one goes at least as far.
theorem orElse (hb : Tells L b) (hc : Tells L c) (fb : Firm b) (fc : Firm c) (hs : Sooner p q) :
    Tells L (.orElse b c) := by
  intro s f hf
  by_cases hp : Rejects p s
  case neg =>
    rw [orElse_of_not_rejected hp]
    rcases hf with h | h | h
    · exact hb s f h
    · exact absurd ⟨f, h⟩ hp
    · exact absurd h.left hp
  case pos =>
    obtain ⟨g, hp⟩ := hp
    by_cases hq : Rejects q s
    case pos =>
      obtain ⟨g', hq⟩ := hq
      have h := orElse_of_rejected hp hq
      exact .reached <| h ▸ fb.orElse fc s f _ hf h
    case neg =>
      rw [orElse_of_rejected_left hp hq]
      rcases hf with h | h | ⟨-, h | h⟩
      · exact .reached <| (hs s g hp).trans <| fb s f g h hp
      · exact .reached <| hs s f h
      · exact hc s f h
      · exact absurd ⟨f, h⟩ hq

theorem refine {u : α → Except Expectation β} (h : Tells Nothing b)
    (hu : ∀ {s a rest e}, p s = .accepted a rest → u a = .error e → ∀ f, Fault.Overlooks ⟨s, [e]⟩ f) :
    Tells Nothing (b.refine (f := u)) := by
  intro s f hf
  have h := h s f hf
  have hr : Reader.refine p u s = (p >>= fun a => _) s := rfl
  cases hp : p s <;> rw [hp] at h
  case rejected => exact hr ▸ bind_of_rejected hp ▸ h.of_fault rfl rfl
  case aborted  => exact hr ▸ bind_of_aborted hp ▸ h.of_fault rfl rfl
  case accepted a rest =>
    rw [hr, bind_of_accepted hp]
    cases ha : u a
    case ok    => exact h.congr rfl rfl
    case error => exact .overlooked rfl <| hu hp ha f

theorem manyTill {stop : Reader β} (hb : Tells L b) (hp : Forward p) (hq : Forward stop)
    (consumes : ∀ {s a rest}, p s = .accepted a rest → rest.length < s.length)
    (start : AtStart stop) (hl : ∀ {f rest}, L f rest → (Reader.manyTill p stop rest).Shows M f) :
    Tells M (.manyTill b (.whole stop)) := by
  rintro s f ⟨t, hr, h⟩
  have hm := Forward.manyTill hp hq
  induction hr using Relation.ReflTransGen.head_induction_on with
  | head hr _ ih =>
    obtain ⟨hs, a, hi, hl⟩ := hr
    exact manyTill_step hs hi hl ▸ ih.congr rest_map fault?_map
  | refl =>
    rcases h with ⟨⟨⟩⟩ | h | ⟨hs, h⟩
    · exact .reached <| start t f h ▸ (hm t).suffix.length_le
    · have h := hb t f h
      cases hi : p t <;> rw [hi] at h
      case rejected => exact manyTill_of_rejected hs hi ▸ h.of_fault rfl rfl
      case aborted  => exact manyTill_of_aborted hs hi ▸ h.of_fault rfl rfl
      case accepted =>
        rw [manyTill_step hs hi <| consumes hi]
        exact (h.next (hm _) hl).congr rest_map fault?_map

end Tells

end Parts

end Reader

end Palette
