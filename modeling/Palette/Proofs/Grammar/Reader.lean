import Palette.Sheet.Lexical

namespace Palette

def Reply.map (f : α → β) : Reply α → Reply β
  | .accepted a rest => .accepted (f a) rest
  | .rejected fault  => .rejected fault
  | .aborted fault   => .aborted fault

theorem Reply.map_map {f : β → γ} {g : α → β} (r : Reply α) : (r.map g).map f = r.map (f ∘ g) := by
  cases r <;> rfl

theorem Reply.map_eq_rejected {f : α → β} {r : Reply α} {g : Fault} :
    r.map f = .rejected g ↔ r = .rejected g := by
  cases r <;> simp [map]

namespace Reader

variable {α β : Type} {p q : Reader α} {s rest : List Char}

def Rejects (p : Reader α) (s : List Char) : Prop :=
  ∃ f, p s = .rejected f

-- When combined readers accept.

@[simp]
theorem pure_eq_accepted {a b : α} :
    (pure a : Reader α) s = .accepted b rest ↔ a = b ∧ s = rest := by
  simp [pure]

@[simp]
theorem bind_eq_accepted {next : α → Reader β} {b : β} :
    (p >>= next) s = .accepted b rest ↔
      ∃ a s₁, p s = .accepted a s₁ ∧ next a s₁ = .accepted b rest := by
  simp only [bind]
  cases p s <;> simp [and_assoc]

@[simp]
theorem map_eq_accepted {f : α → β} {b : β} :
    (f <$> p) s = .accepted b rest ↔ ∃ a, p s = .accepted a rest ∧ f a = b := by
  simp only [Functor.map, Function.comp]
  cases p s <;> simp [and_assoc]
  exact and_comm

@[simp]
theorem fromStart_apply {p : List Char → Reader α} : fromStart p s = p s s :=
  rfl

@[simp]
theorem commit_eq_accepted {a : α} : commit p s = .accepted a rest ↔ p s = .accepted a rest := by
  simp only [commit]
  cases p s <;> simp

@[simp]
theorem orElse_eq_accepted {a : α} :
    orElse p q s = .accepted a rest ↔
      p s = .accepted a rest ∨ Rejects p s ∧ q s = .accepted a rest := by
  simp only [orElse, Rejects]
  cases p s <;> simp
  cases q s <;> simp

@[simp]
theorem optional_eq_accepted {o : Option α} :
    optional p s = .accepted o rest ↔
      (∃ a, p s = .accepted a rest ∧ o = some a) ∨ Rejects p s ∧ rest = s ∧ o = none := by
  simp only [optional, Rejects]
  cases p s <;> simp [eq_comm, and_assoc, and_comm]

@[simp]
theorem peek_eq_accepted {u : Unit} :
    peek p s = .accepted u rest ↔ rest = s ∧ ∃ a s₁, p s = .accepted a s₁ := by
  simp only [peek]
  cases p s <;> simp [eq_comm]

@[simp]
theorem rejectAt_ne_accepted {a : α} {e : Expectation} {place : List Char} :
    rejectAt place e s ≠ .accepted a rest :=
  nofun

@[simp]
theorem abortAt_ne_accepted {a : α} {e : Expectation} {place : List Char} :
    abortAt place e s ≠ .accepted a rest :=
  nofun

@[simp]
theorem refine_eq_accepted {f : α → Except Expectation β} {b : β} :
    Reader.refine p f s = .accepted b rest ↔ ∃ a, p s = .accepted a rest ∧ f a = .ok b := by
  simp only [Reader.refine, fromStart_apply, bind_eq_accepted]
  constructor
  case mp =>
    intro ⟨a, s₁, hp, h⟩
    cases hf : f a <;> simp [hf] at h
    exact ⟨a, h.2 ▸ hp, h.1 ▸ hf⟩
  case mpr =>
    intro ⟨a, hp, hf⟩
    exact ⟨a, rest, hp, by simp [hf]⟩

@[simp]
theorem character_eq_accepted {c : Char} {u : Unit} :
    character c s = .accepted u rest ↔ s = c :: rest := by
  cases s <;> simp [character]
  split <;> simp_all

@[simp]
theorem endOfInput_eq_accepted {u : Unit} :
    endOfInput s = .accepted u rest ↔ s = [] ∧ rest = [] := by
  cases s <;> simp [endOfInput, eq_comm]

theorem many1_eq_accepted {test : Char → Bool} {expected : List Expectation} {cs : List Char} :
    many1 test expected s = .accepted cs rest ↔
      cs ≠ [] ∧ s.takeWhile test = cs ∧ s.dropWhile test = rest := by
  simp only [many1, List.isEmpty_iff]
  split
  case isTrue h  => simp only [h, reduceCtorEq, false_iff]; rintro ⟨hn, rfl, -⟩; exact hn rfl
  case isFalse h => simp only [Reply.accepted.injEq]; exact ⟨fun ⟨h₁, h₂⟩ => ⟨h₁ ▸ h, h₁, h₂⟩, (·.2)⟩

-- Whatever is read item by item up to a stop holds if it holds of nothing at a stop and of one more
-- item before what it holds of.
theorem manyTill_sound {item : Reader α} {stop : Reader β} {as : List α}
    {P : List Char → List α → List Char → Prop}
    (nil : ∀ {s b rest}, stop s = .accepted b rest → P s [] rest)
    (cons : ∀ {s a s₁ as rest}, item s = .accepted a s₁ → P s₁ as rest → P s (a :: as) rest)
    (h : manyTill item stop s = .accepted as rest) : P s as rest := by
  fun_induction manyTill item stop s generalizing as
  case case1 hs => cases h; exact nil hs
  case case5 hi _ _ _ hm ih => cases h; exact cons hi (ih hm)
  all_goals cases h

theorem manyTill_nil {item : Reader α} {stop : Reader β} {b : β}
    (h : stop s = .accepted b rest) : manyTill item stop s = .accepted [] rest := by
  rw [manyTill, h]

theorem manyTill_cons {item : Reader α} {stop : Reader β} {a : α} {as : List α} {s₁ : List Char}
    (hs : Rejects stop s) (hi : item s = .accepted a s₁) (hl : s₁.length < s.length)
    (h : manyTill item stop s₁ = .accepted as rest) :
    manyTill item stop s = .accepted (a :: as) rest := by
  have ⟨_, hs⟩ := hs
  rw [manyTill, hs]
  simp [hi, hl, h]

-- One step of a combined reader, by what its parts reply.

theorem bind_of_accepted {next : α → Reader β} {a : α} (h : p s = .accepted a rest) :
    (p >>= next) s = next a rest := by
  simp only [bind, h]

theorem bind_of_rejected {next : α → Reader β} {f : Fault} (h : p s = .rejected f) :
    (p >>= next) s = .rejected f := by
  simp only [bind, h]

theorem bind_of_aborted {next : α → Reader β} {f : Fault} (h : p s = .aborted f) :
    (p >>= next) s = .aborted f := by
  simp only [bind, h]

theorem bind_pure_eq {f : α → β} : (p >>= fun a => pure (f a)) s = (p s).map f := by
  simp only [bind]
  cases p s <;> rfl

theorem map_apply {f : α → β} : (f <$> p) s = (p s).map f :=
  bind_pure_eq

theorem character_cons {c : Char} : character c (c :: s) = .accepted () s :=
  character_eq_accepted.mpr rfl

theorem orElse_of_rejected {f g : Fault} (h : p s = .rejected f) (h' : q s = .rejected g) :
    orElse p q s = .rejected (f.merge g) := by
  simp only [orElse, h, h']

theorem orElse_of_not_rejected (h : ¬Rejects p s) : orElse p q s = p s := by
  cases hp : p s with
  | rejected f => exact absurd ⟨f, hp⟩ h
  | _          => simp only [orElse, hp]

theorem orElse_of_rejected_left {f : Fault} (h : p s = .rejected f) (h' : ¬Rejects q s) :
    orElse p q s = q s := by
  cases hq : q s with
  | rejected f => exact absurd ⟨f, hq⟩ h'
  | _          => simp only [orElse, h, hq]

theorem optional_of_rejected {f : Fault} (h : p s = .rejected f) :
    optional p s = .accepted none s := by
  simp only [optional, h]

theorem manyTill_step {item : Reader α} {stop : Reader β} {a : α} (hs : Rejects stop s)
    (hi : item s = .accepted a rest) (hl : rest.length < s.length) :
    manyTill item stop s = (manyTill item stop rest).map (a :: ·) := by
  have ⟨_, hs⟩ := hs
  rw [manyTill, hs]
  simp only [hi, if_pos hl]
  cases manyTill item stop rest <;> rfl

theorem manyTill_of_rejected {item : Reader α} {stop : Reader β} {f : Fault}
    (hs : Rejects stop s) (hi : item s = .rejected f) : manyTill item stop s = .rejected f := by
  have ⟨_, hs⟩ := hs
  rw [manyTill, hs]
  simp only [hi]

theorem manyTill_of_aborted {item : Reader α} {stop : Reader β} {f : Fault}
    (hs : Rejects stop s) (hi : item s = .aborted f) : manyTill item stop s = .aborted f := by
  have ⟨_, hs⟩ := hs
  rw [manyTill, hs]
  simp only [hi]

-- When combined readers reject.

@[simp]
theorem not_pure_rejects {a : α} : ¬Rejects (pure a : Reader α) s :=
  nofun

@[simp]
theorem fromStart_rejects {p : List Char → Reader α} : Rejects (fromStart p) s ↔ Rejects (p s) s :=
  Iff.rfl

@[simp]
theorem bind_rejects {next : α → Reader β} :
    Rejects (p >>= next) s ↔ Rejects p s ∨ ∃ a s₁, p s = .accepted a s₁ ∧ Rejects (next a) s₁ := by
  simp only [Rejects, bind]
  cases p s <;> simp [and_assoc]

@[simp]
theorem map_rejects {f : α → β} : Rejects (f <$> p) s ↔ Rejects p s := by
  simp only [Rejects, Functor.map, Function.comp]
  cases p s <;> simp

@[simp]
theorem orElse_rejects : Rejects (orElse p q) s ↔ Rejects p s ∧ Rejects q s := by
  simp only [Rejects, orElse]
  cases p s <;> cases q s <;> simp

@[simp]
theorem commit_not_rejects : ¬Rejects (commit p) s := by
  simp only [Rejects, commit]
  cases p s <;> simp

@[simp]
theorem optional_not_rejects : ¬Rejects (optional p) s := by
  simp only [Rejects, optional]
  cases p s <;> simp

@[simp]
theorem peek_rejects : Rejects (peek p) s ↔ Rejects p s := by
  simp only [Rejects, peek]
  cases p s <;> simp

theorem bind_eq_rejected {next : α → Reader β} {f : Fault} :
    (p >>= next) s = .rejected f ↔
      p s = .rejected f ∨ ∃ a s₁, p s = .accepted a s₁ ∧ next a s₁ = .rejected f := by
  simp only [bind]
  cases p s <;> simp [and_assoc]

theorem character_eq_rejected {c : Char} {f : Fault} :
    character c s = .rejected f ↔ s.head? ≠ some c ∧ f = ⟨s, [.character c]⟩ := by
  cases s <;> simp [character, eq_comm]
  split <;> simp_all [eq_comm]

theorem orElse_eq_rejected {f : Fault} :
    orElse p q s = .rejected f ↔
      ∃ g₁ g₂, p s = .rejected g₁ ∧ q s = .rejected g₂ ∧ f = g₁.merge g₂ := by
  simp only [orElse]
  cases p s <;> cases q s <;> simp [eq_comm]

@[simp]
theorem character_rejects {c : Char} : Rejects (character c) s ↔ s.head? ≠ some c := by
  cases s <;> simp [Rejects, character]
  split <;> simp_all

@[simp]
theorem many1_rejects {test : Char → Bool} {expected : List Expectation} :
    Rejects (many1 test expected) s ↔ s.takeWhile test = [] := by
  simp [Rejects, many1]
  split <;> simp_all

@[simp]
theorem endOfInput_rejects : Rejects endOfInput s ↔ s ≠ [] := by
  cases s <;> simp [Rejects, endOfInput]

-- When combined readers abort.

theorem bind_eq_aborted {next : α → Reader β} {f : Fault} :
    (p >>= next) s = .aborted f ↔
      p s = .aborted f ∨ ∃ a s₁, p s = .accepted a s₁ ∧ next a s₁ = .aborted f := by
  simp only [bind]
  cases p s <;> simp [and_assoc]

theorem character_ne_aborted {c : Char} {f : Fault} : character c s ≠ .aborted f := by
  cases s <;> simp only [character]
  case nil  => nofun
  case cons => split <;> nofun

theorem many1_ne_aborted {test : Char → Bool} {expected : List Expectation} {f : Fault} :
    many1 test expected s ≠ .aborted f := by
  unfold many1
  split <;> nofun

theorem map_eq_aborted {g : α → β} {f : Fault} : (g <$> p) s = .aborted f ↔ p s = .aborted f := by
  simp only [Functor.map, Function.comp]
  cases p s <;> simp

theorem orElse_eq_aborted {f : Fault} :
    orElse p q s = .aborted f ↔ p s = .aborted f ∨ Rejects p s ∧ q s = .aborted f := by
  simp only [Rejects, orElse]
  cases p s <;> cases q s <;> simp

theorem commit_eq_aborted {f : Fault} :
    commit p s = .aborted f ↔ p s = .aborted f ∨ p s = .rejected f := by
  simp only [commit]
  cases p s <;> simp

end Reader

end Palette
