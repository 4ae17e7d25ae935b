import Mathlib.Data.List.Nodup
import Palette.Proofs.Accessor.Naming
import Palette.Proofs.Arrangement.Basic

-- The accessors of a sheet in another order. Members are sorted by their names, which leaves nothing
-- of the order of the sheet as long as no two siblings share one.

namespace Palette

namespace Accessor

open Item (Distinct Rearranged)

variable {Γ : Context} {qualifier : String} {items items' : List Item} {i : Item}
variable {m : Member} {members members' : List Member} {sheet sheet' : Sheet} {style : Style}

theorem name_of_memberOf (h : memberOf Γ qualifier i = .ok m) : m.name = i.shortName := by
  cases i with
  | declaration =>
    have ⟨_, _, he⟩ := memberOf_declaration_eq_ok.mp h
    exact he ▸ rfl
  | group =>
    have ⟨_, _, he⟩ := memberOf_group_eq_ok.mp h
    exact he ▸ rfl

theorem names_of_membersOf (h : membersOf Γ qualifier items = .ok members) :
    members.map Member.name = items.map Item.shortName := by
  induction items generalizing members
  case nil => exact membersOf_nil_eq_ok.mp h ▸ rfl
  case cons ih =>
    have ⟨_, _, hm, hr, he⟩ := membersOf_cons_eq_ok.mp h
    rw [he, List.map_cons, List.map_cons, name_of_memberOf hm, ih hr]

theorem sortMembers_sorted : (sortMembers members).Pairwise (·.name ≤ ·.name) := by
  refine (List.pairwise_mergeSort ?_ ?_ members).imp of_decide_eq_true
  case refine_1 => simpa using fun _ _ _ => String.le_trans
  case refine_2 => simpa using fun _ _ => String.le_total ..

-- Two members of the same name would be one and the same.
theorem sortMembers_eq (h : members.Perm members') (hn : (members.map Member.name).Nodup) :
    sortMembers members = sortMembers members' := by
  have hp : (sortMembers members).Perm (sortMembers members') :=
    sortMembers_perm.trans <| h.trans sortMembers_perm.symm
  refine hp.eq_of_pairwise (fun a b ha hb hab hba => ?_) sortMembers_sorted sortMembers_sorted
  have ha := sortMembers_perm.mem_iff.mp ha
  have hb := h.mem_iff.mpr <| sortMembers_perm.mem_iff.mp hb
  exact List.inj_on_of_nodup_map hn ha hb <| String.le_antisymm hab hba

-- By induction on the rearrangement. The members of a group are sorted, and so they end up the same
-- ones in the same order, while those next to it may still be in another one.
theorem membersOf_rearrange (hr : Rearranged items items') (hd : Distinct items)
    (h : membersOf Γ qualifier items = .ok members) :
    ∃ members', membersOf Γ qualifier items' = .ok members' ∧ members.Perm members' := by
  induction hr generalizing qualifier members
  case nil => exact ⟨members, h, .refl _⟩
  case cons ih =>
    have ⟨m, others, hm, hr, he⟩ := membersOf_cons_eq_ok.mp h
    have ⟨others', hr', hp⟩ := ih hd.tail hr
    exact ⟨m :: others', membersOf_cons_eq_ok.mpr ⟨m, others', hm, hr', rfl⟩, he ▸ hp.cons m⟩
  case group hi _ ih ih' =>
    have ⟨m, others, hm, hr, he⟩ := membersOf_cons_eq_ok.mp h
    have ⟨others', hr', hp⟩ := ih' hd.tail hr
    have ⟨inner, hi, hg⟩ := memberOf_group_eq_ok.mp hm
    have hd := hd.of_mem List.mem_cons_self
    have ⟨inner', hi', hp'⟩ := ih hd hi
    have hn : (inner.map Member.name).Nodup := names_of_membersOf hi ▸ hd [] _ .here
    rw [sortMembers_eq hp' hn] at hg
    have hm' := memberOf_group_eq_ok.mpr ⟨inner', hi', hg⟩
    exact ⟨m :: others', membersOf_cons_eq_ok.mpr ⟨m, others', hm', hr', rfl⟩, he ▸ hp.cons m⟩
  case swap =>
    have ⟨m, _, hm, h, he⟩ := membersOf_cons_eq_ok.mp h
    have ⟨m', others, hm', hr, he'⟩ := membersOf_cons_eq_ok.mp h
    refine ⟨m' :: m :: others, membersOf_cons_eq_ok.mpr ⟨m', _, hm', ?_, rfl⟩, ?_⟩
    · exact membersOf_cons_eq_ok.mpr ⟨m, others, hm, hr, rfl⟩
    · exact he ▸ he' ▸ .swap ..
  case trans hr _ ih ih' =>
    have ⟨middle, hm, hp⟩ := ih hd h
    have ⟨members', hm', hp'⟩ := ih' (hr.distinct hd) hm
    exact ⟨members', hm', hp.trans hp'⟩

theorem tree_rearrange (hr : sheet.Rearranged sheet') (hd : Distinct sheet.body)
    (h : tree Γ sheet = .ok m) : tree Γ sheet' = .ok m := by
  have ⟨members, hm, he⟩ := tree_eq_ok.mp h
  have ⟨members', hm', hp⟩ := membersOf_rearrange hr.body hd hm
  have hn : (members.map Member.name).Nodup := names_of_membersOf hm ▸ hd [] _ .here
  exact tree_eq_ok.mpr ⟨members', hm', sortMembers_eq hp hn ▸ he⟩

theorem render_rearrange {text : String} (hr : sheet.Rearranged sheet') (hd : Distinct sheet.body)
    (h : render style sheet Γ = .ok text) : render style sheet' Γ = .ok text := by
  have ⟨root, ht, he⟩ := render_eq_ok.mp h
  exact render_eq_ok.mpr ⟨root, tree_rearrange hr hd ht, he⟩

end Accessor

end Palette
