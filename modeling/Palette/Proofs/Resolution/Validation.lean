import Palette.Proofs.Resolution.Errors

-- What validation says of values: all that can be wrong with one then is wrong with the value itself
-- and not with a variable.

namespace Palette.Context

variable (Γ : Context)

-- What a value itself is to blame for: a name that is not declared, or a pair in a slot of its own.
inductive Lacks (v : Value) : ResolveError → Prop
  | undeclared : v.Mentions name → Γ.value? name = none → Lacks v (.undefined name)
  | pair : v.InSlot name → Γ.IsPair name → Lacks v (.pairInSlot name)

variable {Γ} {name : String} {r : Reference} {e : ResolveError} {s : Slot} {v : Value} {x : Resolved}
variable {c : Color}

theorem forM_eq_ok {names : List String} {check : String → Except ResolveError Unit} :
    names.forM check = .ok () ↔ ∀ name ∈ names, check name = .ok () := by
  induction names
  case nil => simp [List.forM, pure, Except.pure]
  case cons name rest ih =>
    rw [List.forM, List.forall_mem_cons, ← ih]
    cases check name <;> simp [bind, Except.bind]

-- What a reference stands for is of no interest to validation, only whether it does.

theorem discard_eq_ok {y : Except ResolveError Resolved} :
    (do let _ ← y) = .ok () ↔ ∃ x, y = .ok x := by
  cases y <;> simp [bind, Except.bind, pure, Except.pure]

theorem discard_eq_error {y : Except ResolveError Resolved} :
    (do let _ ← y) = .error e ↔ y = .error e := by
  cases y <;> simp [bind, Except.bind, pure, Except.pure]

theorem validate_eq_ok :
    Γ.validate = .ok () ↔
      ∀ name v, Γ.value? name = some v → ∃ x, Γ.resolveReference ⟨name, .one⟩ = .ok x := by
  simp only [validate, forM_eq_ok, discard_eq_ok]
  constructor
  case mp => exact fun h name v hv => h name <| Table.mem_names.mpr ⟨v, hv⟩
  case mpr =>
    intro h name hm
    have ⟨v, hv⟩ := Table.mem_names.mp hm
    exact h name v hv

-- An opacity makes no difference to whether a reference resolves.
theorem resolveReference_of_validate (h : Γ.validate = .ok ()) (hv : Γ.value? r.name = some v) :
    ∃ x, Γ.resolveReference r = .ok x := by
  have ⟨_, hx⟩ := validate_eq_ok.mp h _ _ hv
  obtain ⟨_, _, hy⟩ := (resolveReference_eq_ok.mp hx).of_name
  exact ⟨_, hy r.opacity⟩

theorem lacks_of_resolve_eq_error (h : Γ.validate = .ok ()) (he : Γ.resolve v = .error e) :
    Γ.Lacks v e := by
  rcases Value.cases_of_resolveBy_eq_error he with ⟨r, hm, hr⟩ | ⟨r, _, _, hs, hr, rfl⟩
  · cases hu : Γ.value? r.name
    case none =>
      obtain ⟨hn, _⟩ | ⟨_, _, rfl⟩ | ⟨_, _, hv, _⟩ := follow_eq_error.mp hr
      · cases hn
      · exact .undeclared hm hu
      · cases hu.symm.trans hv
    case some =>
      have ⟨_, hx⟩ := resolveReference_of_validate h hu
      cases hr.symm.trans hx
  · exact .pair hs (follow_sound hr).isPair

-- In every context, what yields something lacks nothing.

theorem ReferenceYields.declared (h : Γ.ReferenceYields r x) : ∃ u, Γ.value? r.name = some u := by
  cases h with | intro hv _ => exact ⟨_, hv⟩

theorem ReferenceYields.not_isPair (h : Γ.ReferenceYields r (.plain c)) : ¬Γ.IsPair r.name := by
  rintro ⟨_, _, hp⟩
  obtain ⟨y, hx, hy⟩ := h.of_name
  cases y with
  | plain _       => cases hp.symm.trans (hy .one)
  | lightDark _ _ => cases hx

theorem SlotYields.declared (h : Γ.SlotYields s c) (hm : s.Mentions name) :
    ∃ u, Γ.value? name = some u := by
  cases hm with | reference => cases h with | reference h => exact h.declared

theorem SlotYields.not_isPair (h : Γ.SlotYields s c) (hm : s.Mentions name) : ¬Γ.IsPair name := by
  cases hm with | reference => cases h with | reference h => exact h.not_isPair

theorem ValueYields.declared (h : Γ.ValueYields v x) (hm : v.Mentions name) :
    ∃ u, Γ.value? name = some u := by
  cases hm with
  | plain hm => cases hm with | reference => cases h with | reference h => exact h.declared
  | light hm => cases h with | lightDark hl _ => exact hl.declared hm
  | dark hm  => cases h with | lightDark _ hd => exact hd.declared hm

theorem ValueYields.not_isPair (h : Γ.ValueYields v x) (hs : v.InSlot name) : ¬Γ.IsPair name := by
  cases hs with
  | light hm => cases h with | lightDark hl _ => exact hl.not_isPair hm
  | dark hm  => cases h with | lightDark _ hd => exact hd.not_isPair hm

theorem resolves_iff_of_validate (h : Γ.validate = .ok ()) :
    (∃ x, Γ.resolve v = .ok x) ↔
      (∀ name, v.Mentions name → ∃ u, Γ.value? name = some u) ∧
      ∀ name, v.InSlot name → ¬Γ.IsPair name := by
  constructor
  case mp =>
    rintro ⟨x, hx⟩
    have hy := resolve_eq_ok.mp hx
    exact ⟨fun _ => hy.declared, fun _ => hy.not_isPair⟩
  case mpr =>
    rintro ⟨hm, hs⟩
    cases hx : Γ.resolve v
    case ok x => exact ⟨x, rfl⟩
    case error e =>
      cases lacks_of_resolve_eq_error h hx with
      | undeclared hn hu =>
        have ⟨_, hd⟩ := hm _ hn
        cases hu.symm.trans hd
      | pair hi hp => exact absurd hp <| hs _ hi

end Palette.Context
