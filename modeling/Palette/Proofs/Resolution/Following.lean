import Mathlib.Data.List.Chain
import Palette.Proofs.Resolution.Meaning

-- What one step of following a reference does, and where a trail of names comes from.

namespace Palette

variable {f : Follow} {e : ResolveError}

namespace Slot

@[simp]
theorem resolveBy_color {c : Color} : (Slot.color c).resolveBy f = .ok c :=
  rfl

@[simp]
theorem resolveBy_reference_eq_ok {r : Reference} {c : Color} :
    (Slot.reference r).resolveBy f = .ok c ↔ f r = .ok (.plain c) := by
  simp only [resolveBy]
  split <;> simp_all

theorem resolveBy_eq_error {s : Slot} :
    s.resolveBy f = .error e ↔
      ∃ r, s = .reference r ∧
        (f r = .error e ∨ ∃ l d, f r = .ok (.lightDark l d) ∧ e = .pairInSlot r.name) := by
  cases s
  case color => simp
  case reference r =>
    simp only [resolveBy, reference.injEq, exists_eq_left']
    split <;> simp_all [eq_comm]

end Slot

namespace Value

@[simp]
theorem resolveBy_color {c : Color} :
    Value.resolveBy f (.plain (.color c)) = .ok (.plain c) :=
  rfl

@[simp]
theorem resolveBy_lightDark_eq_ok {l d : Slot} {x : Resolved} :
    Value.resolveBy f (.lightDark l d) = .ok x ↔
      ∃ a b, l.resolveBy f = .ok a ∧ d.resolveBy f = .ok b ∧ x = .lightDark a b := by
  simp only [resolveBy, bind, Except.bind]
  cases l.resolveBy f <;> cases d.resolveBy f <;> simp [pure, Except.pure, eq_comm]

theorem resolveBy_lightDark_eq_error {l d : Slot} :
    Value.resolveBy f (.lightDark l d) = .error e ↔
      l.resolveBy f = .error e ∨ (∃ a, l.resolveBy f = .ok a) ∧ d.resolveBy f = .error e := by
  simp only [resolveBy, bind, Except.bind]
  cases l.resolveBy f <;> cases d.resolveBy f <;> simp [pure, Except.pure]

-- A value fails with one of its references, or with a slot that such a reference has a pair for.
theorem cases_of_resolveBy_eq_error {v : Value} (h : v.resolveBy f = .error e) :
    (∃ r, v.Mentions r.name ∧ f r = .error e) ∨
      ∃ r l d, v.InSlot r.name ∧ f r = .ok (.lightDark l d) ∧ e = .pairInSlot r.name := by
  rcases v with (_ | r) | ⟨l, d⟩
  case plain.color     => cases h
  case plain.reference => exact .inl ⟨r, .plain .reference, h⟩
  case lightDark =>
    rcases resolveBy_lightDark_eq_error.mp h with h | ⟨_, h⟩
    · obtain ⟨r, rfl, hr | ⟨a, b, hr, he⟩⟩ := Slot.resolveBy_eq_error.mp h
      · exact .inl ⟨r, .light .reference, hr⟩
      · exact .inr ⟨r, a, b, .light .reference, hr, he⟩
    · obtain ⟨r, rfl, hr | ⟨a, b, hr, he⟩⟩ := Slot.resolveBy_eq_error.mp h
      · exact .inl ⟨r, .dark .reference, hr⟩
      · exact .inr ⟨r, a, b, .dark .reference, hr, he⟩

theorem InSlot.mentions {v : Value} {name : String} (h : v.InSlot name) : v.Mentions name := by
  cases h with
  | light h => exact .light h
  | dark h  => exact .dark h

theorem error_of_resolveBy {v : Value} (h : v.resolveBy f = .error e) :
    ∃ r, v.Mentions r.name ∧
      (f r = .error e ∨ ∃ l d, f r = .ok (.lightDark l d) ∧ e = .pairInSlot r.name) := by
  rcases cases_of_resolveBy_eq_error h with ⟨r, hm, he⟩ | ⟨r, l, d, hs, hr, he⟩
  · exact ⟨r, hm, .inl he⟩
  · exact ⟨r, hs.mentions, .inr ⟨l, d, hr, he⟩⟩

end Value

namespace Context

variable {Γ : Context} {trail : List String} {r : Reference}

theorem follow_eq_ok {x : Resolved} :
    Γ.follow trail r = .ok x ↔
      r.name ∉ trail ∧ ∃ v y, Γ.value? r.name = some v ∧
        v.resolveBy (Γ.follow (trail ++ [r.name])) = .ok y ∧ y.map (·.fade r.opacity) = x := by
  rw [follow]
  split
  case isTrue h => simp [h]
  case isFalse h =>
    split
    case h_1 hv => simp [hv]
    case h_2 v hv =>
      simp only [hv, h, Option.some.injEq, exists_and_left, exists_eq_left', not_false_eq_true,
        true_and]
      cases v.resolveBy (Γ.follow (trail ++ [r.name])) <;> simp [Except.map]

theorem follow_eq_error :
    Γ.follow trail r = .error e ↔
      (r.name ∈ trail ∧ e = .cycle (trail.dropWhile (· ≠ r.name) ++ [r.name])) ∨
      (r.name ∉ trail ∧ Γ.value? r.name = none ∧ e = .undefined r.name) ∨
      (r.name ∉ trail ∧ ∃ v, Γ.value? r.name = some v ∧
        v.resolveBy (Γ.follow (trail ++ [r.name])) = .error e) := by
  rw [follow]
  split
  case isTrue h => simp [h, eq_comm]
  case isFalse h =>
    split
    case h_1 hv => simp [h, hv, eq_comm]
    case h_2 v hv =>
      simp only [hv, h, Option.some.injEq, exists_eq_left', not_false_eq_true, true_and,
        false_and, reduceCtorEq, false_or]
      cases v.resolveBy (Γ.follow (trail ++ [r.name])) <;> simp [Except.map]

variable (Γ) in
-- Each name on a trail refers to the one behind it, and the last one to the name that is next.
def Trail (trail : List String) (name : String) : Prop :=
  (trail ++ [name]).IsChain Γ.Refers

namespace Trail

variable {name other : String}

theorem nil : Γ.Trail [] name :=
  .singleton _

theorem step (h : Γ.Trail trail name) (hr : Γ.Refers name other) :
    Γ.Trail (trail ++ [name]) other := by
  refine List.isChain_append.mpr ⟨h, .singleton _, ?_⟩
  simpa using hr

theorem leads (h : Γ.Trail trail name) (hn : other ∈ trail) :
    Relation.TransGen Γ.Refers other name := by
  have hc := List.isChain_iff_pairwise.mp <| h.imp fun _ _ => Relation.TransGen.single
  exact (List.pairwise_append.mp hc).right.right other hn name (List.mem_singleton_self _)

-- What is left of a trail from where a name was first seen goes from that name back to it.
theorem cycle (h : Γ.Trail trail name) (hn : name ∈ trail) :
    ∃ path, trail.dropWhile (· ≠ name) = name :: path ∧ Γ.Trail (name :: path) name := by
  obtain ⟨before, path, rfl, hb⟩ := List.eq_append_cons_of_mem hn
  have hd : (before ++ name :: path).dropWhile (· ≠ name) = name :: path := by
    rw [List.dropWhile_append_of_pos (by grind)]
    simp
  refine ⟨path, hd, List.IsChain.suffix h ?_⟩
  exact ⟨before, by simp⟩

theorem returns {path : List String} (h : Γ.Trail (name :: path) name)
    (hn : other ∈ name :: path ++ [name]) : Relation.TransGen Γ.Refers other other := by
  have start : Relation.TransGen Γ.Refers name name := h.leads List.mem_cons_self
  have hc := List.isChain_iff_pairwise.mp <| h.imp fun _ _ => Relation.TransGen.single
  have := List.pairwise_cons.mp hc |>.left other
  rcases List.mem_append.mp hn with hn | hn
  case inl =>
    rcases List.mem_cons.mp hn with rfl | hp
    · exact start
    · exact (h.leads hn).trans <| this <| List.mem_append_left _ hp
  case inr => exact List.mem_singleton.mp hn ▸ start

end Trail

end Context

end Palette
