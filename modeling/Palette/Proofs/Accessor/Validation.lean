import Palette.Accessor.Source
import Palette.Proofs.Accessor.Agreement
import Palette.Proofs.Resolution.Validation

-- What can still go wrong with the output for a sheet whose variables have been validated.

namespace Palette

open Accessor (membersOf membersOf_cons_eq_error memberOf_declaration_eq_error
  memberOf_group_eq_error render tree_eq_error)
open Catalog (error_of_write write)
open Item (Scope)
open Program

variable {Γ : Context} {sheet : Sheet} {e : ResolveError}

-- By recursion over the items, of which one declaration is the first that does not resolve.
theorem Accessor.error_of_membersOf {items : List Item} {qualifier : String}
    (h : membersOf Γ qualifier items = .error e) :
    ∃ path scope d, Scope items path scope ∧ .declaration d ∈ scope ∧ Γ.resolve d.value = .error e := by
  match items with
  | [] => cases h
  | i :: rest =>
    rcases membersOf_cons_eq_error.mp h with hi | ⟨_, _, hr⟩
    · match i with
      | .declaration d =>
        exact ⟨_, _, d, .here, List.mem_cons_self, memberOf_declaration_eq_error.mp hi⟩
      | .group _ _ =>
        have ⟨path, scope, d, hs, hd, he⟩ := error_of_membersOf <| memberOf_group_eq_error.mp hi
        exact ⟨_, scope, d, .inner List.mem_cons_self hs, hd, he⟩
    · have ⟨path, scope, d, hs, hd, he⟩ := error_of_membersOf hr
      have ⟨scope', hs', hl⟩ := hs.cons (i := i)
      exact ⟨path, scope', d, hs', hl.mem hd, he⟩

theorem Accessor.render_eq_error {style : Style} :
    render style sheet Γ = .error e ↔ membersOf Γ "" sheet.body = .error e := by
  rw [render, ← tree_eq_error]
  cases tree Γ sheet <;> simp [bind, Except.bind, pure, Except.pure]

theorem Sheet.lacks_of_membersOf (hv : Γ.validate = .ok ())
    (h : membersOf Γ "" sheet.body = .error e) :
    ∃ path scope d, Scope sheet.body path scope ∧ .declaration d ∈ scope ∧ Γ.Lacks d.value e := by
  have ⟨path, scope, d, hs, hd, he⟩ := Accessor.error_of_membersOf h
  exact ⟨path, scope, d, hs, hd, Context.lacks_of_resolve_eq_error hv he⟩

-- Validated variables resolve wherever they are used, but declarations are not validated. Whatever
-- does not resolve then names something that is not declared, or has a pair in a slot of its own.
theorem Sheet.output_of_validate (sheet : Sheet) (hv : (Context.ofSheet sheet).validate = .ok ()) :
    (∀ path scope d, Scope sheet.body path scope → .declaration d ∈ scope →
      ((∃ x, (Context.ofSheet sheet).resolve d.value = .ok x) ↔
        (∀ name, d.value.Mentions name → ∃ v, (Context.ofSheet sheet).value? name = some v) ∧
        ∀ name, d.value.InSlot name → ¬(Context.ofSheet sheet).IsPair name)) ∧
    (∀ o p fs fs' e, outcome (write o (.ofSheet sheet) sheet p) fs = (.error (.resolve e), fs') →
      ∃ path scope d, Scope sheet.body path scope ∧ .declaration d ∈ scope ∧
        (Context.ofSheet sheet).Lacks d.value e) ∧
    ∀ style e, render style sheet (.ofSheet sheet) = .error e →
      ∃ path scope d, Scope sheet.body path scope ∧ .declaration d ∈ scope ∧
        (Context.ofSheet sheet).Lacks d.value e := by
  refine ⟨fun _ _ _ _ _ => Context.resolves_iff_of_validate hv, fun o p fs fs' e h => ?_,
    fun style e h => lacks_of_membersOf hv <| Accessor.render_eq_error.mp h⟩
  rcases error_of_write h with hx | ⟨_, he, hx⟩
  · cases hx
  · cases hx
    exact lacks_of_membersOf hv he

-- Of two references of a sheet, one is to a variable of it.
theorem Sheet.output_of_validate_half :
    let a : Declaration := ⟨"a", .plain (.reference ⟨"w", .one⟩)⟩
    let b : Declaration := ⟨"b", .plain (.reference ⟨"missing", .one⟩)⟩
    let w : Declaration := ⟨"w", .plain (.color ⟨0, 0, 0, .one⟩)⟩
    let sheet : Sheet := ⟨[.variable w, .item (.declaration a), .item (.declaration b)]⟩
    (Context.ofSheet sheet).validate = .ok () ∧
    (∃ x, (Context.ofSheet sheet).resolve a.value = .ok x) ∧
    ¬∃ x, (Context.ofSheet sheet).resolve b.value = .ok x := by
  intro a b w sheet
  have hw : (Context.ofSheet sheet).value? "w" = some w.value := rfl
  have hv : (Context.ofSheet sheet).validate = .ok () := by
    refine Context.validate_eq_ok.mpr fun name v hv => ?_
    have hn : name ∈ (Context.ofSheet sheet).declared.names := Table.mem_names.mpr ⟨v, hv⟩
    obtain rfl : name = "w" := List.mem_singleton.mp hn
    exact ⟨_, Context.resolveReference_eq_ok.mpr <| .intro hw .color⟩
  obtain ⟨hd, _⟩ := Sheet.output_of_validate sheet hv
  refine ⟨hv, (hd [] _ a .here (by simp [sheet, Sheet.body])).mpr ⟨?_, nofun⟩, fun hx => ?_⟩
  case refine_1 =>
    intro _ hm
    cases hm with | plain hm => cases hm with | reference => exact ⟨_, hw⟩
  case refine_2 =>
    obtain ⟨hm, _⟩ := (hd [] _ b .here (by simp [sheet, Sheet.body])).mp hx
    obtain ⟨_, hu⟩ := hm "missing" (.plain .reference)
    cases hu

-- A sheet without variables is validated, whatever its declarations refer to.

def undeclared : Sheet :=
  ⟨[.item (.declaration ⟨"a", .plain (.reference ⟨"missing", .one⟩)⟩)]⟩

theorem parse_undeclared : Sheet.parse "a: $missing" = .ok undeclared := by
  have hr : Grammar.Reference ('$' :: _) ⟨"missing", .one⟩ [] :=
    .intro (.of_all 'm' ['i', 's', 's', 'i', 'n', 'g'] rfl) .full
  have hd : Grammar.Declaration ('a' :: ':' :: ' ' :: _) _ [] :=
    .intro (.of_all 'a' [] rfl) (.intro .nil (.space .nil)) <| .plain <| .reference hr
  exact Sheet.parse_of_topItems (.cons (.item <| .declaration hd) (.last .nil (.inl rfl) rfl) .nil)
    (by decide)

theorem Sheet.validate_of_undeclared :
    Sheet.parse "a: $missing" = .ok undeclared ∧
    (Context.ofSheet undeclared).validate = .ok () ∧
    Scope undeclared.body [] undeclared.body ∧
    .declaration ⟨"a", .plain (.reference ⟨"missing", .one⟩)⟩ ∈ undeclared.body ∧
    (Context.ofSheet undeclared).resolve (.plain (.reference ⟨"missing", .one⟩)) =
      .error (.undefined "missing") ∧
    render {} undeclared (.ofSheet undeclared) = .error (.undefined "missing") := by
  have hr : (Context.ofSheet undeclared).resolve (.plain (.reference ⟨"missing", .one⟩)) =
      .error (.undefined "missing") :=
    Context.follow_eq_error.mpr <| .inr <| .inl ⟨nofun, rfl, rfl⟩
  refine ⟨parse_undeclared, rfl, .here, List.mem_cons_self, hr, Accessor.render_eq_error.mpr ?_⟩
  exact membersOf_cons_eq_error.mpr <| .inl <| memberOf_declaration_eq_error.mpr hr

end Palette
