import Palette.Proofs.Arrangement.Accessor
import Palette.Proofs.Catalog.Ambiguity
import Palette.Proofs.Text.ByteOrder

-- What the tree of a sheet is, said without the steps that make it. Nothing is lost, nothing is added
-- and no order is made up: members are sorted by their names alone.

namespace Palette

open Item (declarations declarationsOf)

namespace Accessor

-- Members in the order of the bytes of their names. Those of one name are in the order they had.
structure Arranged (made members : List Member) : Prop where
  perm   : members.Perm made
  sorted : members.Pairwise fun a b => utf8Bytes a.name ≤ utf8Bytes b.name
  stable : ∀ name, members.filter (·.name = name) = made.filter (·.name = name)

section

variable (Γ : Context)

mutual

-- A member stands for an item in groups of some names.
inductive StandsFor : List String → Item → Member → Prop
  | entry : Γ.resolve d.value = .ok colors →
    StandsFor path (.declaration d) (.entry d.name (String.join (path ++ [d.name])) colors)
  | group : StandForAll (path ++ [name]) items made → Arranged made members →
    StandsFor path (.group name items) (.group name (String.join (path ++ [name])) members)

-- Members stand for items one by one.
inductive StandForAll : List String → List Item → List Member → Prop
  | nil  : StandForAll path [] []
  | cons : StandsFor path i m → StandForAll path items members →
    StandForAll path (i :: items) (m :: members)

end

def failure? (d : Declaration) : Option ResolveError :=
  match Γ.resolve d.value with
  | .ok _    => none
  | .error e => some e

end

variable {Γ : Context} {path : List String} {items : List Item} {i : Item} {d : Declaration}
variable {m : Member} {made members members' : List Member} {e : ResolveError}
variable {name qualifier : String}

theorem failure?_eq_some : failure? Γ d = some e ↔ Γ.resolve d.value = .error e := by
  rw [failure?]
  cases Γ.resolve d.value <;> simp

theorem failure?_eq_none : failure? Γ d = none ↔ ∃ colors, Γ.resolve d.value = .ok colors := by
  rw [failure?]
  cases Γ.resolve d.value <;> simp

-- All members of one name are in order already, and sorting keeps what is in order.
theorem filter_sortMembers (name : String) :
    (sortMembers made).filter (·.name = name) = made.filter (·.name = name) := by
  have hs : (made.filter (·.name = name)).Sublist (sortMembers made) := by
    refine List.sublist_mergeSort ?trans ?total ?_ List.filter_sublist
    case trans => simpa using fun _ _ _ => String.le_trans
    case total => simpa using fun _ _ => String.le_total ..
    refine List.pairwise_of_forall_mem_list fun a ha b hb => decide_eq_true ?_
    have ha : a.name = name := of_decide_eq_true (List.mem_filter.mp ha).right
    have hb : b.name = name := of_decide_eq_true (List.mem_filter.mp hb).right
    exact ha.trans hb.symm ▸ String.le_refl a.name
  have hs := hs.filter (·.name = name)
  rw [List.filter_filter, funext fun _ => Bool.and_self _] at hs
  exact (hs.eq_of_length (sortMembers_perm.filter _).length_eq.symm).symm

theorem arranged_sortMembers : Arranged made (sortMembers made) where
  perm   := sortMembers_perm
  sorted := sortMembers_sorted.imp utf8Bytes_le.mpr
  stable := filter_sortMembers

theorem name_le_of_sorted (hs : (m :: members).Pairwise (·.name ≤ ·.name))
    (h : other ∈ m :: members) : m.name ≤ other.name := by
  cases List.mem_cons.mp h
  case inl he => exact he ▸ String.le_refl _
  case inr hm => exact (List.pairwise_cons.mp hs).left other hm

-- By induction on the members. The first ones of both lists have the least name, and so they are the
-- first ones of that name.
theorem eq_of_filter_eq (hs : members.Pairwise (·.name ≤ ·.name))
    (hs' : members'.Pairwise (·.name ≤ ·.name))
    (h : ∀ name, members.filter (·.name = name) = members'.filter (·.name = name)) :
    members = members' := by
  induction members generalizing members'
  case nil =>
    cases members'
    case nil      => rfl
    case cons m _ => simpa using h m.name
  case cons m rest ih =>
    cases members'
    case nil => simpa using h m.name
    case cons m' rest' =>
      have mem_iff other : other ∈ m :: rest ↔ other ∈ m' :: rest' := by
        have he := congrArg (other ∈ ·) (h other.name)
        simpa only [List.mem_filter, decide_true, and_true, eq_iff_iff] using he
      have hn : m.name = m'.name := String.le_antisymm
        (name_le_of_sorted hs <| (mem_iff m').mpr List.mem_cons_self)
        (name_le_of_sorted hs' <| (mem_iff m).mp List.mem_cons_self)
      have hm : m = m' := by
        have he := h m.name
        rw [List.filter_cons_of_pos (by simp), List.filter_cons_of_pos (by simp [hn])] at he
        exact (List.cons.inj he).left
      subst hm
      refine congrArg (m :: ·) <| ih hs.tail hs'.tail fun name => ?_
      have he := h name
      by_cases hn : m.name = name
      case pos => simpa [hn] using he
      case neg => simpa [hn] using he

-- Only one order will do.
theorem arranged_iff : Arranged made members ↔ members = sortMembers made := by
  constructor
  case mp =>
    intro h
    refine eq_of_filter_eq (h.sorted.imp utf8Bytes_le.mp) sortMembers_sorted fun name => ?_
    rw [h.stable, filter_sortMembers]
  case mpr => exact fun h => h ▸ arranged_sortMembers

theorem standsFor_declaration :
    StandsFor Γ path (.declaration d) m ↔
      ∃ colors, Γ.resolve d.value = .ok colors ∧
        m = .entry d.name (String.join (path ++ [d.name])) colors := by
  constructor
  case mp  => exact fun | .entry hx => ⟨_, hx, rfl⟩
  case mpr => exact fun ⟨_, hx, he⟩ => he ▸ .entry hx

theorem standsFor_group :
    StandsFor Γ path (.group name items) m ↔
      ∃ made, StandForAll Γ (path ++ [name]) items made ∧
        m = .group name (String.join (path ++ [name])) (sortMembers made) := by
  constructor
  case mp  => exact fun | .group hm ha => ⟨_, hm, arranged_iff.mp ha ▸ rfl⟩
  case mpr => exact fun ⟨_, hm, he⟩ => he ▸ .group hm arranged_sortMembers

theorem standForAll_cons :
    StandForAll Γ path (i :: items) members ↔
      ∃ m members', StandsFor Γ path i m ∧ StandForAll Γ path items members' ∧
        members = m :: members' := by
  constructor
  case mp  => exact fun | .cons hm hr => ⟨_, _, hm, hr, rfl⟩
  case mpr => exact fun ⟨_, _, hm, hr, he⟩ => he ▸ .cons hm hr

theorem join_concat : String.join (path ++ [name]) = String.join path ++ name := by
  simp [String.join_append, String.join_cons]

-- By recursion over the items. The qualifier always is what the names of the groups around run together
-- to.

mutual

theorem memberOf_eq_ok (path : List String) (i : Item) (m : Member) :
    memberOf Γ (String.join path) i = .ok m ↔ StandsFor Γ path i m := by
  match i with
  | .declaration d => rw [memberOf_declaration_eq_ok, standsFor_declaration, join_concat]
  | .group name items =>
    rw [memberOf_group_eq_ok, standsFor_group, ← join_concat]
    simp only [membersOf_eq_ok]

theorem membersOf_eq_ok (path : List String) (items : List Item) (members : List Member) :
    membersOf Γ (String.join path) items = .ok members ↔ StandForAll Γ path items members := by
  match items with
  | [] =>
    rw [membersOf_nil_eq_ok]
    constructor
    case mp  => exact fun he => he ▸ .nil
    case mpr => exact fun | .nil => rfl
  | i :: rest =>
    rw [membersOf_cons_eq_ok, standForAll_cons]
    simp only [memberOf_eq_ok, membersOf_eq_ok]

end

theorem exists_memberOf_eq_ok :
    (∃ m, memberOf Γ qualifier i = .ok m) ↔ ∀ e, memberOf Γ qualifier i ≠ .error e := by
  cases memberOf Γ qualifier i <;> simp

-- By recursion over the items, which are gone through in the order of their declarations.

mutual

theorem memberOf_eq_error (qualifier : String) (i : Item) (e : ResolveError) :
    memberOf Γ qualifier i = .error e ↔
      i.declarations.findSome? (failure? Γ ·.2) = some e := by
  match i with
  | .declaration d =>
    rw [memberOf_declaration_eq_error, declarations, ← failure?_eq_some]
    simp
  | .group name items =>
    rw [memberOf_group_eq_error, declarations, membersOf_eq_error, List.findSome?_map]
    rfl

theorem membersOf_eq_error (qualifier : String) (items : List Item) (e : ResolveError) :
    membersOf Γ qualifier items = .error e ↔
      (declarationsOf items).findSome? (failure? Γ ·.2) = some e := by
  match items with
  | [] => simp [membersOf, declarationsOf, pure, Except.pure]
  | i :: rest =>
    rw [membersOf_cons_eq_error, declarationsOf, List.findSome?_append, Option.or_eq_some_iff,
      memberOf_eq_error]
    refine or_congr_right ?_
    rw [exists_and_right, membersOf_eq_error, Option.eq_none_iff_forall_ne_some]
    simp only [exists_memberOf_eq_ok, ne_eq, memberOf_eq_error]

end

-- A tree has one member for each item, and there is none only if some declaration does not resolve.
theorem tree_exact (Γ : Context) (sheet : Sheet) :
    (∀ root, tree Γ sheet = .ok root ↔
      ∃ made members, StandForAll Γ [] sheet.body made ∧ Arranged made members ∧
        root = .group rootName "" members) ∧
    (∀ e, tree Γ sheet = .error e ↔
      ∃ front place back, declarationsOf sheet.body = front ++ place :: back ∧
        Γ.resolve place.2.value = .error e ∧
        ∀ earlier ∈ front, ∃ colors, Γ.resolve earlier.2.value = .ok colors) ∧
    ((∃ e, tree Γ sheet = .error e) ↔
      ∃ place ∈ declarationsOf sheet.body, ∃ e, Γ.resolve place.2.value = .error e) := by
  refine ⟨fun root => ?ok, fun e => ?error, ?fails⟩
  case ok =>
    rw [tree_eq_ok]
    constructor
    case mp =>
      intro ⟨made, hm, he⟩
      exact ⟨made, sortMembers made, (membersOf_eq_ok [] ..).mp hm, arranged_sortMembers, he⟩
    case mpr =>
      intro ⟨made, _, hs, ha, he⟩
      exact ⟨made, (membersOf_eq_ok [] ..).mpr hs, arranged_iff.mp ha ▸ he⟩
  case error =>
    rw [tree_eq_error, membersOf_eq_error, List.findSome?_eq_some_iff]
    simp only [failure?_eq_some, failure?_eq_none]
  case fails =>
    simp only [tree_eq_error, membersOf_eq_error, ← failure?_eq_some]
    simp only [← Option.isSome_iff_exists, List.findSome?_isSome_iff]

end Accessor

end Palette
