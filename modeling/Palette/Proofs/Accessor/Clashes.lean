import Palette.Proofs.Accessor.Naming

-- The names in the enums of a source. Nothing of one kind has the name of another one of its kind
-- beside it, since folders would clash; but an accessor and an enum can share a name, for the folder of
-- a color is named otherwise than that of a group.

namespace Palette

open Catalog (Named)
open Item (Scope declarationNames groupNames)

namespace Accessor

-- The members of the enum at a path of names that starts among some members.
inductive EnumAt : List Member → List String → List Member → Prop
  | here  : EnumAt members [] members
  | inner : .group name qualified members' ∈ members → EnumAt members' path found →
    EnumAt members (name :: path) found

def accessorNames (members : List Member) : List String :=
  members.filterMap fun
    | .entry name _ _ => some name
    | .group _ _ _    => none

def enumNames (members : List Member) : List String :=
  members.filterMap fun
    | .entry _ _ _    => none
    | .group name _ _ => some name

-- What is known of the names in an enum by the items of the group that it is made for.
structure NamedAfter (members : List Member) (scope : List Item) : Prop where
  accessors     : (accessorNames members).Perm (declarationNames scope)
  enums         : (enumNames members).Perm (groupNames scope)
  accessorsOnce : (accessorNames members).Nodup
  enumsOnce     : (enumNames members).Nodup
  once_iff      : (members.map Member.name).Nodup ↔
    ¬∃ name, name ∈ declarationNames scope ∧ name ∈ groupNames scope
  alphanumeric  : ∀ name ∈ members.map Member.name, name ≠ "" ∧ ∀ c ∈ name.toList, c.isAlphanum

variable {Γ : Context} {qualifier name : String} {items scope : List Item} {path : List String}
variable {members made found : List Member} {style : Style}

theorem names_perm : (members.map Member.name).Perm (accessorNames members ++ enumNames members) := by
  induction members
  case nil => exact .nil
  case cons m _ ih =>
    cases m with
    | entry => exact ih.cons _
    | group => exact (ih.cons _).trans List.perm_middle.symm

theorem kindNames_of_membersOf (h : membersOf Γ qualifier items = .ok members) :
    accessorNames members = declarationNames items ∧ enumNames members = groupNames items := by
  induction items generalizing members
  case nil => exact membersOf_nil_eq_ok.mp h ▸ ⟨rfl, rfl⟩
  case cons i _ ih =>
    obtain ⟨_, _, hm, hr, rfl⟩ := membersOf_cons_eq_ok.mp h
    have ⟨ha, he⟩ := ih hr
    cases i with
    | declaration =>
      obtain ⟨_, _, rfl⟩ := memberOf_declaration_eq_ok.mp hm
      exact ⟨congrArg _ ha, he⟩
    | group =>
      obtain ⟨_, _, rfl⟩ := memberOf_group_eq_ok.mp hm
      exact ⟨ha, congrArg _ he⟩

-- Enums are made for groups, one for each.

theorem EnumAt.exists_scope (h : EnumAt (sortMembers members) path found)
    (hm : membersOf Γ qualifier items = .ok members) :
    ∃ scope qualifier' made, Scope items path scope ∧ membersOf Γ qualifier' scope = .ok made ∧
      found = sortMembers made := by
  generalize hs : sortMembers members = sorted at h
  induction h generalizing qualifier items members
  case here => exact ⟨items, qualifier, members, .here, hm, hs.symm⟩
  case inner hg _ ih =>
    have ⟨i, hi, hg⟩ := (mem_membersOf hm).mp <| sortMembers_perm.mem_iff.mp <| hs ▸ hg
    cases i with
    | declaration => simp at hg
    | group =>
      obtain ⟨_, hm', he⟩ := memberOf_group_eq_ok.mp hg
      cases he
      have ⟨scope, _, made, hs, hm, he⟩ := ih hm' rfl
      exact ⟨scope, _, made, .inner hi hs, hm, he⟩

theorem exists_enumAt (h : Scope items path scope) (hm : membersOf Γ qualifier items = .ok members) :
    ∃ found, EnumAt (sortMembers members) path found := by
  induction h generalizing qualifier members
  case here => exact ⟨_, .here⟩
  case inner hg _ ih =>
    have ⟨m, hi⟩ := memberOf_of_mem hm hg
    obtain ⟨members', hm', rfl⟩ := memberOf_group_eq_ok.mp hi
    have ⟨found, hf⟩ := ih hm'
    have hg := sortMembers_perm.mem_iff.mpr <| (mem_membersOf hm).mpr ⟨_, hg, hi⟩
    exact ⟨found, .inner hg hf⟩

theorem namedAfter (hn : Named items) (hd : Catalog.Admissible Γ "" items) (hs : Scope items path scope)
    (hm : membersOf Γ qualifier scope = .ok made) : NamedAfter (sortMembers made) scope := by
  have ⟨ha, he⟩ := kindNames_of_membersOf hm
  have ha : (accessorNames (sortMembers made)).Perm (declarationNames scope) :=
    ha ▸ sortMembers_perm.filterMap _
  have he : (enumNames (sortMembers made)).Perm (groupNames scope) :=
    he ▸ sortMembers_perm.filterMap _
  have hp := names_perm.trans <| ha.append he
  have hd' := hd.declarations hs
  have hg := hd.groups hs
  refine ⟨ha, he, ha.nodup_iff.mpr hd', he.nodup_iff.mpr hg, ?once, fun name h => ?alphanumeric⟩
  case once =>
    rw [hp.nodup_iff, List.nodup_append, and_iff_right hd', and_iff_right hg]
    constructor
    case mp  => exact fun h ⟨name, hd, hg⟩ => h name hd name hg rfl
    case mpr => exact fun h name hd _ hg he => h ⟨name, hd, he ▸ hg⟩
  case alphanumeric =>
    rcases List.mem_append.mp <| hp.mem_iff.mp h with h | h
    · obtain ⟨d, hi, rfl⟩ := Item.mem_declarationNames.mp h
      exact hn.declaration hs hi
    · have ⟨_, hi⟩ := Item.mem_groupNames.mp h
      exact hn.group hs hi

end Accessor

namespace Catalog

open Accessor (EnumAt Member NamedAfter render rootName source tree)
open Item (declarationNames groupNames)
open Program (outcome)

variable {o : Options} {style : Accessor.Style} {sheet : Sheet} {fs fs' : FileSystem}

-- There is an enum for every group, and its names are those of the items in the group.
theorem names_in_enums {input text : String} (hs : Sheet.parse input = .ok sheet)
    {p : Path} {c : Counts}
    (hw : outcome (write o (.ofSheet sheet) sheet p) fs = (.ok c, fs'))
    (ht : render style sheet (.ofSheet sheet) = .ok text) :
    ∃ members,
      tree (.ofSheet sheet) sheet = .ok (.group rootName "" members) ∧
      text = source style (.group rootName "" members) ∧
      (∀ path, (∃ found, EnumAt members path found) ↔ ∃ scope, Item.Scope sheet.body path scope) ∧
      ∀ path found, EnumAt members path found →
        ∃ scope, Item.Scope sheet.body path scope ∧ NamedAfter found scope := by
  have hn := Sheet.named_of_parse hs
  obtain ⟨_, hr, rfl⟩ := Accessor.render_eq_ok.mp ht
  obtain ⟨made, hm, rfl⟩ := Accessor.tree_eq_ok.mp hr
  obtain ⟨_, _, _, _, _, _, _, _, hu, _⟩ := fills_of_write hn hw
  refine ⟨_, hr, rfl, fun path => ⟨?groups, ?enums⟩, fun path found hf => ?names⟩
  case groups =>
    intro ⟨_, hf⟩
    have ⟨scope, _, _, hs, _, _⟩ := hf.exists_scope hm
    exact ⟨scope, hs⟩
  case enums => exact fun ⟨_, hs⟩ => Accessor.exists_enumAt hs hm
  case names =>
    obtain ⟨scope, _, _, hs, hm, rfl⟩ := hf.exists_scope hm
    exact ⟨scope, hs, Accessor.namedAfter hn hu.admissible hs hm⟩

-- A group and a declaration of one name, which is a number.
def shared : Sheet :=
  ⟨[.item (.group "1" []), .item (.declaration ⟨"1", .plain (.color ⟨0, 0, 0, .one⟩)⟩)]⟩

theorem parse_shared : Sheet.parse "1\x7b\x7d\n1:#000000" = .ok shared := by
  have hd := declaration_of_hexColor '1' [] rfl <| hexColor_black []
  have hg rest : Grammar.Item ('1' :: '\x7b' :: _) _ rest :=
    .group (.of_all '1' [] rfl) .nil .nil .nil
  exact Sheet.parse_of_topItems (.cons (.item <| hg _) (.line .nil (.inl rfl) .lf .nil) <|
    .cons (.item <| .declaration hd) (.last .nil (.inl rfl) rfl) .nil) (by decide)

theorem fills_shared :
    ∃ t, Fills {} (.ofSheet shared) "" shared.body (described (groupContent {})) t :=
  ⟨_, .group rfl (by decide) .nil <| .declaration rfl (by decide) rfl .nil⟩

theorem outputs_of_shared :
    ∃ c fs' text, outcome (write {} (.ofSheet shared) shared (.ofText "x")) .empty = (.ok c, fs') ∧
      render {} shared (.ofSheet shared) = .ok text := by
  have ⟨t, ht⟩ := fills_shared
  have hp : PathsFit "" shared.body (.ofText "x") :=
    .cons_group (.nil (by decide)) <| .cons_declaration (by decide) <| .nil (by decide)
  have hw := write_of_fills (Sheet.named_of_parse parse_shared) hp ht
  have ⟨text, hr⟩ := render_of_write {} hw
  exact ⟨_, _, text, hw, hr⟩

theorem names_in_enums_of_shared :
    ∃ members, tree (.ofSheet shared) shared = .ok (.group rootName "" members) ∧
      (Accessor.accessorNames members).Perm ["1"] ∧ (Accessor.enumNames members).Perm ["1"] := by
  have ⟨_, _, _, hw, ht⟩ := outputs_of_shared
  have ⟨members, hr, _, _, hn⟩ := names_in_enums parse_shared hw ht
  have ⟨_, hs, ha⟩ := hn [] members .here
  cases hs
  exact ⟨members, hr, ha.accessors, ha.enums⟩

-- An accessor and an enum share a name, and it begins with a digit.
theorem names_clash_in_shared :
    Sheet.parse "1\x7b\x7d\n1:#000000" = .ok shared ∧
    ∃ c fs' text members,
      outcome (write {} (.ofSheet shared) shared (.ofText "x")) .empty = (.ok c, fs') ∧
      render {} shared (.ofSheet shared) = .ok text ∧
      tree (.ofSheet shared) shared = .ok (.group rootName "" members) ∧
      ¬(members.map Member.name).Nodup ∧
      ∀ name ∈ members.map Member.name, name.toList.head?.any Char.isDigit := by
  have ⟨_, _, text, hw, ht⟩ := outputs_of_shared
  have ⟨_, hf⟩ := fills_shared
  have ⟨_, hr, _⟩ := Accessor.render_eq_ok.mp ht
  obtain ⟨made, hm, rfl⟩ := Accessor.tree_eq_ok.mp hr
  have hn := Accessor.namedAfter (Sheet.named_of_parse parse_shared) hf.admissible .here hm
  refine ⟨parse_shared, _, _, text, _, hw, ht, hr, fun h => ?_, fun name h => ?_⟩
  case refine_1 => exact hn.once_iff.mp h ⟨"1", by decide, by decide⟩
  case refine_2 =>
    have hp := Accessor.names_perm.trans <| hn.accessors.append hn.enums
    have hone : ∀ name ∈ declarationNames shared.body ++ groupNames shared.body,
        name.toList.head?.any Char.isDigit := by decide
    exact hone name <| hp.mem_iff.mp h

end Catalog

end Palette
