import Palette.Accessor.Tree
import Palette.Proofs.Catalog.Admissible

-- The folders of a catalog that the members of a tree stand for.

namespace Palette

open Catalog (colorFolderName qualified)
open Item (Scope)

namespace Accessor

mutual

-- The folders of a member and of all members below it. Only entries have colors.
def Member.folders : Member → List (Place × Option Resolved)
  | .entry _ qualified colors => [([colorFolderName qualified], some colors)]
  | .group name _ members     => ([name], none) :: (foldersOf members).map (.map (name :: ·) id)

def foldersOf : List Member → List (Place × Option Resolved)
  | []        => []
  | m :: rest => m.folders ++ foldersOf rest

end

variable {Γ : Context} {qualifier name : String} {items inner : List Item} {i : Item}
variable {d : Declaration} {m : Member} {members members' : List Member} {e : ResolveError}
variable {path rest : Place} {k : Option Resolved}

theorem foldersOf_eq_flatMap : foldersOf members = members.flatMap Member.folders := by
  induction members
  case nil         => rfl
  case cons m _ ih => rw [foldersOf, ih, List.flatMap_cons]

theorem foldersOf_perm (h : members.Perm members') :
    (foldersOf members).Perm (foldersOf members') := by
  rw [foldersOf_eq_flatMap, foldersOf_eq_flatMap]
  exact h.flatMap_right _

theorem paths_group :
    (Member.group name qualifier members).folders.map Prod.fst =
      [name] :: ((foldersOf members).map Prod.fst).map (name :: ·) := by
  simp [Member.folders, Function.comp_def]

theorem sortMembers_perm : (sortMembers members).Perm members :=
  List.mergeSort_perm ..

-- What the members for items are made of.

@[simp]
theorem memberOf_declaration_eq_ok :
    memberOf Γ qualifier (.declaration d) = .ok m ↔
      ∃ colors, Γ.resolve d.value = .ok colors ∧ m = .entry d.name (qualifier ++ d.name) colors := by
  rw [memberOf]
  cases Γ.resolve d.value <;> simp [bind, Except.bind, pure, Except.pure, eq_comm]

@[simp]
theorem memberOf_group_eq_ok :
    memberOf Γ qualifier (.group name inner) = .ok m ↔
      ∃ members, membersOf Γ (qualifier ++ name) inner = .ok members ∧
        m = .group name (qualifier ++ name) (sortMembers members) := by
  rw [memberOf]
  cases membersOf Γ (qualifier ++ name) inner <;> simp [bind, Except.bind, pure, Except.pure, eq_comm]

theorem membersOf_nil_eq_ok : membersOf Γ qualifier [] = .ok members ↔ members = [] := by
  rw [membersOf]
  simp [pure, Except.pure, eq_comm]

theorem membersOf_cons_eq_ok :
    membersOf Γ qualifier (i :: items) = .ok members ↔
      ∃ m members', memberOf Γ qualifier i = .ok m ∧ membersOf Γ qualifier items = .ok members' ∧
        members = m :: members' := by
  rw [membersOf]
  cases memberOf Γ qualifier i <;> cases membersOf Γ qualifier items <;>
    simp [bind, Except.bind, pure, Except.pure, eq_comm]

@[simp]
theorem memberOf_declaration_eq_error :
    memberOf Γ qualifier (.declaration d) = .error e ↔ Γ.resolve d.value = .error e := by
  rw [memberOf]
  cases Γ.resolve d.value <;> simp [bind, Except.bind, pure, Except.pure]

@[simp]
theorem memberOf_group_eq_error :
    memberOf Γ qualifier (.group name inner) = .error e ↔
      membersOf Γ (qualifier ++ name) inner = .error e := by
  rw [memberOf]
  cases membersOf Γ (qualifier ++ name) inner <;> simp [bind, Except.bind, pure, Except.pure]

-- The first error counts.
theorem membersOf_cons_eq_error :
    membersOf Γ qualifier (i :: items) = .error e ↔
      memberOf Γ qualifier i = .error e ∨
        ∃ m, memberOf Γ qualifier i = .ok m ∧ membersOf Γ qualifier items = .error e := by
  rw [membersOf]
  cases memberOf Γ qualifier i <;> cases membersOf Γ qualifier items <;>
    simp [bind, Except.bind, pure, Except.pure]

theorem tree_eq_ok {sheet : Sheet} :
    tree Γ sheet = .ok m ↔
      ∃ members, membersOf Γ "" sheet.body = .ok members ∧
        m = .group rootName "" (sortMembers members) := by
  rw [tree]
  cases membersOf Γ "" sheet.body <;> simp [bind, Except.bind, pure, Except.pure, eq_comm]

theorem tree_eq_error {sheet : Sheet} :
    tree Γ sheet = .error e ↔ membersOf Γ "" sheet.body = .error e := by
  rw [tree]
  cases membersOf Γ "" sheet.body <;> simp [bind, Except.bind, pure, Except.pure]

theorem mem_membersOf (h : membersOf Γ qualifier items = .ok members) :
    m ∈ members ↔ ∃ i ∈ items, memberOf Γ qualifier i = .ok m := by
  induction items generalizing members
  case nil =>
    rw [membersOf_nil_eq_ok.mp h]
    simp
  case cons i items ih =>
    obtain ⟨first, others, hf, hr, rfl⟩ := membersOf_cons_eq_ok.mp h
    simp [ih hr, hf, eq_comm]

theorem memberOf_of_mem (h : membersOf Γ qualifier items = .ok members) (hi : i ∈ items) :
    ∃ m, memberOf Γ qualifier i = .ok m := by
  induction items generalizing members
  case nil => cases hi
  case cons first items ih =>
    obtain ⟨_, _, hf, hr, rfl⟩ := membersOf_cons_eq_ok.mp h
    rcases List.mem_cons.mp hi with rfl | hi
    · exact ⟨_, hf⟩
    · exact ih hr hi

-- The folders of the members of items, said of the items.

theorem mem_folders_group :
    (path, k) ∈ (Member.group name qualifier (sortMembers members)).folders ↔
      path = [name] ∧ k = none ∨ ∃ rest, path = name :: rest ∧ (rest, k) ∈ foldersOf members := by
  rw [Member.folders, List.mem_cons, List.mem_map, Prod.mk.injEq]
  simp only [(foldersOf_perm sortMembers_perm).mem_iff]
  constructor
  case mp =>
    rintro (h | ⟨⟨rest, _⟩, hm, he⟩)
    · exact .inl h
    · cases he
      exact .inr ⟨rest, rfl, hm⟩
  case mpr =>
    rintro (h | ⟨rest, rfl, hm⟩)
    · exact .inl h
    · exact .inr ⟨(rest, k), hm, rfl⟩

theorem nil_not_mem_foldersOf : ([], k) ∉ foldersOf members := by
  rw [foldersOf_eq_flatMap, List.mem_flatMap]
  rintro ⟨m, _, h⟩
  cases m <;> simp [Member.folders] at h

theorem mem_foldersOf_cons (h : membersOf Γ qualifier items = .ok members) :
    (name :: rest, k) ∈ foldersOf members ↔
      (∃ d colors, .declaration d ∈ items ∧ Γ.resolve d.value = .ok colors ∧
        name = colorFolderName (qualifier ++ d.name) ∧ rest = [] ∧ k = some colors) ∨
      ∃ inner members', .group name inner ∈ items ∧
        membersOf Γ (qualifier ++ name) inner = .ok members' ∧
        (rest = [] ∧ k = none ∨ (rest, k) ∈ foldersOf members') := by
  rw [foldersOf_eq_flatMap, List.mem_flatMap]
  simp only [mem_membersOf h]
  constructor
  case mp =>
    rintro ⟨m, ⟨_ | ⟨n, inner⟩, hi, hm⟩, hf⟩
    case declaration d =>
      obtain ⟨colors, hx, rfl⟩ := memberOf_declaration_eq_ok.mp hm
      simp only [Member.folders, List.mem_singleton, Prod.mk.injEq, List.cons.injEq] at hf
      exact .inl ⟨d, colors, hi, hx, hf.left.left, hf.left.right, hf.right⟩
    case group =>
      obtain ⟨members', hm', rfl⟩ := memberOf_group_eq_ok.mp hm
      rcases mem_folders_group.mp hf with ⟨he, rfl⟩ | ⟨_, he, hf⟩
      · cases he
        exact .inr ⟨inner, members', hi, hm', .inl ⟨rfl, rfl⟩⟩
      · cases he
        exact .inr ⟨inner, members', hi, hm', .inr hf⟩
  case mpr =>
    rintro (⟨d, colors, hi, hx, rfl, rfl, rfl⟩ | ⟨inner, members', hi, hm, hr⟩)
    · refine ⟨_, ⟨_, hi, memberOf_declaration_eq_ok.mpr ⟨colors, hx, rfl⟩⟩, ?_⟩
      simp [Member.folders]
    · refine ⟨_, ⟨_, hi, memberOf_group_eq_ok.mpr ⟨members', hm, rfl⟩⟩, mem_folders_group.mpr ?_⟩
      rcases hr with ⟨rfl, rfl⟩ | hr
      · exact .inl ⟨rfl, rfl⟩
      · exact .inr ⟨rest, rfl, hr⟩

theorem members_of_group (h : membersOf Γ qualifier items = .ok members)
    (hg : .group name inner ∈ items) :
    ∃ members', membersOf Γ (qualifier ++ name) inner = .ok members' := by
  have ⟨_, hm⟩ := memberOf_of_mem h hg
  have ⟨members', hi, _⟩ := memberOf_group_eq_ok.mp hm
  exact ⟨members', hi⟩

-- By induction on the path, along which groups are entered.

theorem mem_foldersOf_none (h : membersOf Γ qualifier items = .ok members) :
    (path, none) ∈ foldersOf members ↔ path ≠ [] ∧ ∃ scope, Scope items path scope := by
  induction path generalizing qualifier items members
  case nil => simp [nil_not_mem_foldersOf]
  case cons name rest ih =>
    rw [mem_foldersOf_cons h]
    constructor
    case mp =>
      rintro (⟨_, _, _, _, _, _, hk⟩ | ⟨inner, members', hg, hm, hr⟩)
      · cases hk
      · refine ⟨by simp, ?_⟩
        rcases hr with ⟨rfl, _⟩ | hr
        · exact ⟨inner, .inner hg .here⟩
        · have ⟨_, scope, hs⟩ := (ih hm).mp hr
          exact ⟨scope, .inner hg hs⟩
    case mpr =>
      rintro ⟨_, scope, _ | ⟨hg, hs⟩⟩
      have ⟨members', hm⟩ := members_of_group h hg
      refine .inr ⟨_, members', hg, hm, ?_⟩
      by_cases hr : rest = []
      · exact .inl ⟨hr, rfl⟩
      · exact .inr <| (ih hm).mpr ⟨hr, scope, hs⟩

theorem mem_foldersOf_some {colors : Resolved} (h : membersOf Γ qualifier items = .ok members) :
    (path, some colors) ∈ foldersOf members ↔
      ∃ front scope d, Scope items front scope ∧ .declaration d ∈ scope ∧
        Γ.resolve d.value = .ok colors ∧
        path = front ++ [colorFolderName (qualified qualifier front d)] := by
  induction path generalizing qualifier items members
  case nil => simp [nil_not_mem_foldersOf]
  case cons name rest ih =>
    rw [mem_foldersOf_cons h]
    constructor
    case mp =>
      rintro (⟨d, _, hd, hx, rfl, rfl, hk⟩ | ⟨inner, members', hg, hm, ⟨_, hk⟩ | hr⟩)
      · cases hk
        exact ⟨[], items, d, .here, hd, hx, by rw [Catalog.qualified_nil]; rfl⟩
      · cases hk
      · obtain ⟨front, scope, d, hs, hd, hx, rfl⟩ := (ih hm).mp hr
        exact ⟨name :: front, scope, d, .inner hg hs, hd, hx, by rw [Catalog.qualified_cons]; rfl⟩
    case mpr =>
      rintro ⟨front, scope, d, _ | ⟨hg, hs⟩, hd, hx, he⟩
      · rw [Catalog.qualified_nil] at he
        cases he
        exact .inl ⟨d, colors, hd, hx, rfl, rfl, rfl⟩
      · rw [Catalog.qualified_cons] at he
        cases he
        have ⟨members', hm⟩ := members_of_group h hg
        exact .inr ⟨_, members', hg, hm, .inr <| (ih hm).mpr ⟨_, scope, d, hs, hd, hx, rfl⟩⟩

theorem resolves_of_membersOf {scope : List Item} (h : membersOf Γ qualifier items = .ok members)
    (hs : Scope items path scope) (hd : .declaration d ∈ scope) :
    ∃ colors, Γ.resolve d.value = .ok colors := by
  induction hs generalizing qualifier members
  case here =>
    have ⟨_, hm⟩ := memberOf_of_mem h hd
    have ⟨colors, hx, _⟩ := memberOf_declaration_eq_ok.mp hm
    exact ⟨colors, hx⟩
  case inner hg _ ih =>
    have ⟨_, hm⟩ := members_of_group h hg
    exact ih hm hd

end Accessor

end Palette
