import Palette.Proofs.Resolution.Validation
import Palette.Proofs.Table
import Palette.Proofs.Text.ByteOrder

-- What the variables of a sheet stand for, and which of them validation stops at.

namespace Palette.Context

variable {Γ : Context} {sheet sheet' : Sheet} {name : String} {e : ResolveError}

-- A name stands for what it was last declared as.
theorem ofSheet_value? :
    (ofSheet sheet).value? name =
      ((sheet.variableDeclarations.filter (·.name = name)).getLast?).map (·.value) := by
  rw [value?, ofSheet, Table.find?_ofList, List.filter_map, List.getLast?_map, Option.map_map]
  rfl

-- Only declarations of the same name have an order that matters.
theorem ofSheet_eq
    (h : ∀ name, sheet.variableDeclarations.filter (·.name = name) =
      sheet'.variableDeclarations.filter (·.name = name)) :
    ofSheet sheet = ofSheet sheet' := by
  have value? name : (ofSheet sheet).value? name = (ofSheet sheet').value? name := by
    rw [ofSheet_value?, ofSheet_value?, h]
  exact congrArg mk <| Table.ext value?

variable (Γ) in
-- The variable does not resolve, and by the bytes of their names all others like it come later.
structure FirstFailure (name : String) (e : ResolveError) : Prop where
  declared : ∃ v, Γ.value? name = some v
  fails    : Γ.resolveReference ⟨name, .one⟩ = .error e
  first    : Γ.value? other = some u → Γ.resolveReference ⟨other, .one⟩ = .error e' →
    utf8Bytes name ≤ utf8Bytes other

section

variable {names : List String} {first : String} {check : String → Except ResolveError Unit}

theorem forM_cons_of_error (h : check first = .error e) :
    (first :: names).forM check = .error e := by
  simp [List.forM, h, bind, Except.bind]

theorem forM_cons_of_ok (h : check first = .ok ()) :
    (first :: names).forM check = names.forM check := by
  simp [List.forM, h, bind, Except.bind]

-- By induction on the names, of which the first that fails is the least, since they are in order.
theorem forM_eq_error (h : names.Pairwise (· < ·)) :
    names.forM check = .error e ↔
      ∃ name ∈ names, check name = .error e ∧
        ∀ other ∈ names, ∀ e', check other = .error e' → name ≤ other := by
  induction names
  case nil => simp [List.forM, pure, Except.pure]
  case cons first rest ih =>
    obtain ⟨hl, hr⟩ := List.pairwise_cons.mp h
    cases hc : check first
    case error =>
      rw [forM_cons_of_error hc, Except.error.injEq]
      constructor
      case mp =>
        rintro rfl
        have hf : ∀ other ∈ rest, first ≤ other :=
          fun other hm => String.not_lt.mp <| String.lt_asymm <| hl other hm
        refine ⟨first, List.mem_cons_self, hc, List.forall_mem_cons.mpr ?_⟩
        exact ⟨fun _ _ => String.le_refl _, fun other hm _ _ => hf other hm⟩
      case mpr =>
        rintro ⟨name, hm, hn, hf⟩
        have hle := hf first List.mem_cons_self _ hc
        cases List.mem_cons.mp hm
        case inl he => exact Except.error.inj <| hc.symm.trans <| he ▸ hn
        case inr hm => exact absurd (hl name hm) <| String.not_lt.mpr hle
    case ok =>
      rw [forM_cons_of_ok hc, ih hr]
      constructor
      case mp =>
        rintro ⟨name, hm, hn, hf⟩
        refine ⟨name, List.mem_cons_of_mem _ hm, hn, List.forall_mem_cons.mpr ⟨fun _ he => ?_, hf⟩⟩
        cases hc.symm.trans he
      case mpr =>
        rintro ⟨name, hm, hn, hf⟩
        have hf := (List.forall_mem_cons.mp hf).right
        refine ⟨name, (List.mem_cons.mp hm).resolve_left fun he => ?_, hn, hf⟩
        cases hc.symm.trans <| he ▸ hn

end

theorem validate_eq_error :
    Γ.validate = .error e ↔ ∃ name, Γ.FirstFailure name e := by
  have declared name : name ∈ Γ.declared.names ↔ ∃ v, Γ.value? name = some v := Table.mem_names
  rw [validate, forM_eq_error Γ.declared.sorted]
  simp only [discard_eq_error, declared, ← utf8Bytes_le]
  constructor
  case mp =>
    rintro ⟨name, hd, hf, hl⟩
    exact ⟨name, hd, hf, fun hu he => hl _ ⟨_, hu⟩ _ he⟩
  case mpr =>
    rintro ⟨name, h⟩
    refine ⟨name, h.declared, h.fails, ?_⟩
    rintro _ ⟨_, hu⟩ _ he
    exact h.first hu he

end Palette.Context
