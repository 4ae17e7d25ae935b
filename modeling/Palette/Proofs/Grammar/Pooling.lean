import Mathlib.Data.List.Nodup
import Palette.Proofs.Grammar.Reports

-- What a fault names. Alternatives that fail at the same place pool what they name, and it is compared
-- by what was expected and not by how that is named. Even so no text is named twice, because two texts
-- are the same only if the same was expected.

namespace Palette

namespace Expectation

variable {x y : Expectation}

-- What is always named by the same text.
def fixed : List Expectation :=
  [name, lineBreak, endOfInput, hexPair, channels, channelRange, percentageRange, alpha, alphaRange,
    nestingLimit]

-- Only wrong labels are named by a text that quotes some of the sheet.
def IsPlain (x : Expectation) : Prop :=
  x ∈ fixed ∨ ∃ c, x = character c

theorem text_fixed : (fixed.map text).Nodup ∧
    ∀ x ∈ fixed, x.text.length ≠ 3 ∧ x.text ≠ "valid input" := by
  decide +kernel

theorem text_character {c : Char} : (character c).text = "'" ++ c.toString ++ "'" :=
  rfl

theorem text_lightAndDark {a b : String} : (lightAndDark a b).text =
    "colorset labels 'light' and 'dark' (got '" ++ a ++ "' and '" ++ b ++ "')" :=
  rfl

theorem toList_text_character {c : Char} : (character c).text.toList = ['\'', c, '\''] := by
  simp [text_character]

theorem text_injective (hx : x.IsPlain) (hy : y.IsPlain) (h : x.text = y.text) : x = y := by
  have length (c : Char) : (character c).text.length = 3 := by
    rw [← String.length_toList, toList_text_character]
    rfl
  rcases hx with hx | ⟨c, rfl⟩ <;> rcases hy with hy | ⟨d, rfl⟩
  · exact List.inj_on_of_nodup_map text_fixed.left hx hy h
  · exact absurd (h ▸ length d) (text_fixed.right x hx).left
  · exact absurd (h ▸ length c) (text_fixed.right y hy).left
  · have h := congrArg String.toList h
    rw [toList_text_character, toList_text_character] at h
    simp_all

theorem text_ne_validInput : x.text ≠ "valid input" := by
  have fixed (hx : x ∈ fixed) : x.text ≠ "valid input" := (text_fixed.right x hx).right
  cases x with
  | character c =>
    intro h
    have h := toList_text_character.symm.trans (congrArg String.toList h)
    simp at h
  | lightAndDark a b =>
    intro h
    have h := congrArg String.toList (text_lightAndDark.symm.trans h)
    simp at h
  | _ => exact fixed (by decide)

theorem listText_eq_validInput_iff {all : List Expectation} :
    listText all = "valid input" ↔ all = [] := by
  match all with
  | []          => exact iff_of_true rfl rfl
  | [x]         => exact iff_of_false text_ne_validInput (List.cons_ne_nil x [])
  | x :: y :: r =>
    refine iff_of_false (fun h => ?_) (List.cons_ne_nil x _)
    have h : "one of " ++ ", ".intercalate ((x :: y :: r).map text) = "valid input" := h
    have h := congrArg String.toList h
    rw [String.toList_append] at h
    simp at h

end Expectation

namespace Fault

-- Something is named, and nothing twice.
structure Names (f : Fault) : Prop where
  ne_nil : f.expected ≠ []
  nodup  : (f.expected.map Expectation.text).Nodup

-- What was expected can be pooled with what is expected elsewhere.
structure Pools (f : Fault) : Prop where
  ne_nil : f.expected ≠ []
  nodup  : f.expected.Nodup
  plain  : ∀ x ∈ f.expected, x.IsPlain

variable {f g : Fault} {x : Expectation} {rest : List Char}

theorem Names.single : Names ⟨rest, [x]⟩ :=
  ⟨List.cons_ne_nil x [], List.nodup_singleton _⟩

theorem Pools.single (h : x.IsPlain) : Pools ⟨rest, [x]⟩ :=
  ⟨List.cons_ne_nil x [], List.nodup_singleton x, by simpa using h⟩

theorem Pools.names (h : f.Pools) : f.Names :=
  ⟨h.ne_nil, h.nodup.map_on fun x hx y hy he =>
    Expectation.text_injective (h.plain x hx) (h.plain y hy) he⟩

theorem Pools.insert {all : List Expectation} (h : Pools ⟨rest, all⟩) (hx : x.IsPlain) :
    Pools ⟨rest, if x ∈ all then all else all ++ [x]⟩ := by
  split
  case isTrue  => exact h
  case isFalse hn =>
    refine ⟨by simp, List.nodup_append_comm.mp <| List.nodup_cons.mpr ⟨hn, h.nodup⟩, ?_⟩
    simpa [or_imp, forall_and] using ⟨h.plain, hx⟩

theorem Pools.merge (hf : f.Pools) (hg : g.Pools) : (f.merge g).Pools := by
  unfold Fault.merge
  split
  · exact hf
  · split
    · exact hg
    · exact List.foldlRecOn (motive := fun all => Pools ⟨f.rest, all⟩) g.expected _ hf
        fun all h x hx => h.insert <| hg.plain x hx

end Fault

namespace Reply

variable {α β : Type} {r : Reply α} {T U : List Char → Prop}

-- The fault of a reply names what was expected, or nothing was and it is where `T` has it.
def NamesUnless (T : List Char → Prop) (r : Reply α) : Prop :=
  ∀ f, r.fault? = some f → f.Names ∨ f.expected = [] ∧ T f.rest

theorem NamesUnless.mono (h : r.NamesUnless T) (ht : ∀ {t}, T t → U t) : r.NamesUnless U :=
  fun f hf => (h f hf).imp id (.imp id ht)

theorem NamesUnless.congr {r' : Reply β} (h : r.NamesUnless T) (hf : r'.fault? = r.fault?) :
    r'.NamesUnless T :=
  fun f hr => h f (hf ▸ hr)

end Reply

namespace Reader

variable {α β : Type} {p q : Reader α} {next : α → Reader β} {x : Expectation}
variable {T : List Char → Prop} {s : List Char}

-- A reader whose rejections can be pooled with those of others.
def Pools (p : Reader α) : Prop :=
  ∀ s f, p s = .rejected f → f.Pools

-- A reader that looks for one thing.
def Expects (x : Expectation) (p : Reader α) : Prop :=
  ∀ s f, (p s).fault? = some f → f.expected = [x]

namespace Pools

theorem of_expects (h : Expects x p) (hx : x.IsPlain) : Pools p := by
  intro s ⟨rest, expected⟩ hf
  obtain rfl : expected = [x] := h s ⟨rest, expected⟩ <| hf ▸ rfl
  exact .single hx

theorem of_not_rejects (h : ∀ s, ¬Rejects p s) : Pools p :=
  fun s f hf => absurd ⟨f, hf⟩ (h s)

theorem pure {a : α} : Pools (pure a) :=
  of_not_rejects fun _ => not_pure_rejects

theorem bind (hp : Pools p) (hn : ∀ a, Pools (next a)) : Pools (p >>= next) := by
  intro s f hf
  rcases bind_eq_rejected.mp hf with h | ⟨a, s₁, -, h⟩
  · exact hp s f h
  · exact hn a s₁ f h

theorem map {u : α → β} (h : Pools p) : Pools (u <$> p) :=
  h.bind fun _ => .pure

theorem commit : Pools (commit p) :=
  of_not_rejects fun _ => commit_not_rejects

theorem orElse (hp : Pools p) (hq : Pools q) : Pools (orElse p q) := by
  intro s f hf
  obtain ⟨g₁, g₂, h₁, h₂, rfl⟩ := orElse_eq_rejected.mp hf
  exact (hp s g₁ h₁).merge (hq s g₂ h₂)

theorem peek (h : Pools p) : Pools (peek p) := by
  intro s f hf
  unfold Reader.peek at hf
  split at hf <;> cases hf
  exact h s _ ‹_›

end Pools

end Reader

namespace Reply.NamesUnless

open Reader

variable {α β : Type} {p q : Reader α} {next : α → Reader β} {x : Expectation}
variable {T : List Char → Prop} {s : List Char}

theorem of_expects (h : Expects x p) : (p s).NamesUnless T := by
  intro ⟨rest, expected⟩ hf
  obtain rfl : expected = [x] := h s ⟨rest, expected⟩ hf
  exact .inl .single

theorem pure {a : α} : ((pure a : Reader α) s).NamesUnless T :=
  nofun

theorem rejectAt {rest : List Char} : ((rejectAt rest x : Reader α) s).NamesUnless T :=
  of_expects <| by rintro s f ⟨⟩; rfl

theorem abortAt {rest : List Char} : ((abortAt rest x : Reader α) s).NamesUnless T :=
  of_expects <| by rintro s f ⟨⟩; rfl

theorem bind (hp : (p s).NamesUnless T)
    (hn : ∀ a s₁, p s = .accepted a s₁ → (next a s₁).NamesUnless T) :
    ((p >>= next) s).NamesUnless T := by
  cases h : p s with
  | accepted a s₁ => exact bind_of_accepted h ▸ hn a s₁ h
  | rejected f    => exact bind_of_rejected h ▸ hp.congr (h ▸ rfl)
  | aborted f     => exact bind_of_aborted h ▸ hp.congr (h ▸ rfl)

theorem map {u : α → β} (h : (p s).NamesUnless T) : ((u <$> p) s).NamesUnless T :=
  h.bind fun _ _ _ => .pure

theorem commit (h : (p s).NamesUnless T) : (commit p s).NamesUnless T := by
  unfold Reader.commit
  split
  case h_1 hp => exact h.congr (hp ▸ rfl)
  case h_2    => exact h

theorem orElse (hp : (p s).NamesUnless T) (hq : (q s).NamesUnless T) (pp : Pools p) (pq : Pools q) :
    (orElse p q s).NamesUnless T := by
  by_cases h : Rejects p s
  case neg => exact orElse_of_not_rejected h ▸ hp
  case pos =>
    obtain ⟨f, hf⟩ := h
    by_cases h : Rejects q s
    case neg => exact orElse_of_rejected_left hf h ▸ hq
    case pos =>
      obtain ⟨g, hg⟩ := h
      rw [orElse_of_rejected hf hg]
      rintro _ ⟨⟩
      exact .inl ((pp s f hf).merge (pq s g hg)).names

theorem peek (h : (p s).NamesUnless T) : (peek p s).NamesUnless T := by
  unfold Reader.peek
  split
  case h_1    => exact nofun
  case h_2 hp => exact h.congr (hp ▸ rfl)
  case h_3 hp => exact h.congr (hp ▸ rfl)

theorem refine {u : α → Except Expectation β} (h : (p s).NamesUnless T) :
    (Reader.refine p u s).NamesUnless T := by
  refine bind h fun a s₁ _ => ?_
  cases u a
  case ok    => exact .pure
  case error => exact .rejectAt

-- The place is carried through all items that are read before it.
theorem manyTill {item : Reader α} {stop : Reader β} {T : List Char → List Char → Prop}
    (hi : ∀ s, (item s).NamesUnless (T s)) (hs : ∀ s, (stop s).NamesUnless (T s))
    (consumes : ∀ s a rest, item s = .accepted a rest → rest.length < s.length)
    (step : ∀ {s a s₁ t}, item s = .accepted a s₁ → T s₁ t → T s t) (s : List Char) :
    (Reader.manyTill item stop s).NamesUnless (T s) := by
  fun_induction Reader.manyTill item stop s
  case case1             => rintro _ ⟨⟩
  case case2 s f h       => exact (hs s).congr (h ▸ rfl)
  case case3 s _ _ _ h   => exact (hi s).congr (h ▸ rfl)
  case case4 s _ _ _ h   => exact (hi s).congr (h ▸ rfl)
  case case5             => rintro _ ⟨⟩
  case case6 h _ _ hr ih => exact (hr ▸ ih).mono (step h)
  case case7 h _ _ hr ih => exact (hr ▸ ih).mono (step h)
  case case8 h hl        => exact absurd (consumes _ _ _ h) hl

end Reply.NamesUnless

end Palette
