import Palette.Accessor.Source
import Palette.Proofs.Accessor.Folders
import Palette.Proofs.Catalog.Ambiguity

-- Which lines of a source look a color up in the catalog, and what for: there is one line for each
-- declaration, and no other one.

namespace Palette

open Catalog (qualified qualified_nil qualified_cons)
open Item (declarationsOf)

namespace Accessor

variable {Γ : Context} {style : Style} {qualifier name : String} {items : List Item} {d : Declaration}
variable {depth : Nat} {members members' : List Member} {m : Member} {line front : Line}
variable {colors : Resolved}

-- What stands around the name of a color that is looked up.

def lookupOpening : Line :=
  "UIColor(named: \"".toList

def lookupClosing : Line :=
  "\", in: BundleToken.bundle, compatibleWith: nil)!".toList

theorem initializer_assetCatalog :
    initializer .assetCatalog name colors = lookupOpening ++ name.toList ++ lookupClosing :=
  rfl

-- The line ends with the look-up of a name, which has no quotation mark in it.
def LooksUp (line : Line) (name : String) : Prop :=
  '"' ∉ name.toList ∧ ∃ front, line = front ++ (lookupOpening ++ name.toList ++ lookupClosing)

-- The only lines that end in an exclamation mark are those that look something up.
def Exclaims (line : Line) : Prop :=
  line.getLast? = some '!'

instance : Decidable (Exclaims line) :=
  inferInstanceAs <| Decidable (_ = _)

theorem exclaims_append_lookup :
    Exclaims (front ++ (lookupOpening ++ name.toList ++ lookupClosing)) := by
  have : lookupClosing.getLast? = some '!' := by decide
  simp only [Exclaims, List.getLast?_append, this, Option.some_or]

theorem LooksUp.exclaims (h : LooksUp line name) : Exclaims line := by
  obtain ⟨_, front, rfl⟩ := h
  exact exclaims_append_lookup

-- What stands behind the last character of a kind.
theorem eq_of_append_cons {a : Char} {x x' y y' : Line} (hy : a ∉ y) (hy' : a ∉ y')
    (h : x ++ a :: y = x' ++ a :: y') : y = y' := by
  have last {x y : Line} (hy : a ∉ y) :
      (x ++ a :: y).reverse.takeWhile (fun c => decide (c ≠ a)) = y.reverse := by
    have hm c (hc : c ∈ y.reverse) : decide (c ≠ a) = true :=
      decide_eq_true fun he => hy <| he ▸ List.mem_reverse.mp hc
    rw [List.reverse_append, List.reverse_cons, List.append_assoc, List.takeWhile_append_of_pos hm]
    simp
  exact List.reverse_inj.mp <| (last hy).symm.trans <| h ▸ last hy'

theorem LooksUp.unique {other : String} (h : LooksUp line name) (h' : LooksUp line other) :
    name = other := by
  have quoted {front : Line} {name : String} :
      front ++ (lookupOpening ++ name.toList ++ lookupClosing) =
        front ++ "UIColor(named: ".toList ++ '"' :: name.toList ++ lookupClosing := by
    have : lookupOpening = "UIColor(named: ".toList ++ ['"'] := by decide
    simp only [this, List.append_assoc, List.cons_append, List.nil_append]
  obtain ⟨hn, front, rfl⟩ := h
  obtain ⟨ho, front', he⟩ := h'
  rw [quoted, quoted] at he
  exact String.toList_inj.mp <| eq_of_append_cons hn ho <| List.append_cancel_right he

-- The line of an accessor.
def accessorLine (style : Style) (depth : Nat) (name qualified : String) (colors : Resolved) : Line :=
  indentation style depth ++ (style.access.modifier ++ ("static let ".toList ++ (name.toList ++
    (" = ".toList ++ initializer style.mode qualified colors))))

theorem accessorLine_eq_append (hm : style.mode = .assetCatalog) :
    ∃ front, accessorLine style depth name qualifier colors =
      front ++ (lookupOpening ++ qualifier.toList ++ lookupClosing) := by
  rw [accessorLine, hm, initializer_assetCatalog]
  exact ⟨indentation style depth ++ (style.access.modifier ++ ("static let ".toList ++
    (name.toList ++ " = ".toList))), by simp only [List.append_assoc]⟩

theorem exclaims_accessorLine (hm : style.mode = .assetCatalog) :
    Exclaims (accessorLine style depth name qualifier colors) := by
  have ⟨_, he⟩ : ∃ front, accessorLine style depth name qualifier colors = front ++ _ :=
    accessorLine_eq_append hm
  exact he ▸ exclaims_append_lookup

-- The line is that of an accessor for one of some declarations, which are found below groups whose
-- lines are as deep as given.
def Accesses (Γ : Context) (style : Style) (depth : Nat) (qualifier : String)
    (places : List (List String × Declaration)) (line : Line) : Prop :=
  ∃ path d colors, (path, d) ∈ places ∧ Γ.resolve d.value = .ok colors ∧
    line = accessorLine style (depth + path.length) d.name (qualified qualifier path d) colors

theorem membersLines_eq_flatMap :
    membersLines style depth members = members.flatMap (memberLines style depth) := by
  induction members
  case nil         => rfl
  case cons m _ ih => rw [membersLines, ih, List.flatMap_cons]

theorem membersLines_perm (h : members.Perm members') :
    (membersLines style depth members).Perm (membersLines style depth members') := by
  rw [membersLines_eq_flatMap, membersLines_eq_flatMap]
  exact h.flatMap_right _

-- The lines around the members of a group end in braces.
theorem mem_groupLines (h : Exclaims line) :
    line ∈ memberLines style depth (.group name qualifier members) ↔
      line ∈ membersLines style (depth + 1) members := by
  have opens {front : Line} : ¬Exclaims (front ++ " \x7b".toList) := by
    simp [Exclaims, List.getLast?_append]
  have closes : ¬Exclaims (indentation style depth ++ ['\x7d']) := by
    simp [Exclaims, List.getLast?_append]
  rw [memberLines, List.mem_cons, List.mem_append, List.mem_singleton]
  constructor
  case mp =>
    rintro (rfl | hm | rfl)
    · refine absurd h ?_
      simp only [← List.append_assoc]
      exact opens
    · exact hm
    · exact absurd h closes
  case mpr => exact fun hm => .inr <| .inl hm

namespace Accesses

variable {i : Item} {places places' : List (List String × Declaration)}

theorem append :
    Accesses Γ style depth qualifier (places ++ places') line ↔
      Accesses Γ style depth qualifier places line ∨
      Accesses Γ style depth qualifier places' line := by
  simp only [Accesses, List.mem_append, or_and_right, exists_or]

-- Below a group, the paths begin with its name.
theorem map :
    Accesses Γ style depth qualifier (places.map (.map (name :: ·) id)) line ↔
      Accesses Γ style (depth + 1) (qualifier ++ name) places line := by
  constructor
  case mp =>
    rintro ⟨_, _, colors, hm, hx, rfl⟩
    obtain ⟨⟨path, d⟩, hp, he⟩ := List.mem_map.mp hm
    cases he
    refine ⟨path, d, colors, hp, hx, ?_⟩
    rw [qualified_cons, List.length_cons, ← Nat.add_assoc, Nat.add_right_comm, id_eq]
  case mpr =>
    rintro ⟨path, d, colors, hm, hx, rfl⟩
    refine ⟨name :: path, d, colors, List.mem_map.mpr ⟨_, hm, rfl⟩, hx, ?_⟩
    rw [qualified_cons, List.length_cons, ← Nat.add_assoc, Nat.add_right_comm]

theorem exclaims (hm : style.mode = .assetCatalog)
    (h : Accesses Γ style depth qualifier places line) : Exclaims line := by
  obtain ⟨_, _, _, _, _, rfl⟩ := h
  exact exclaims_accessorLine hm

end Accesses

-- By recursion over the items. The lines of a group are those of its members and two more.
theorem mem_membersLines {items : List Item} {qualifier : String} {depth : Nat}
    {members : List Member} (hm : style.mode = .assetCatalog)
    (h : membersOf Γ qualifier items = .ok members) :
    line ∈ membersLines style depth members ∧ Exclaims line ↔
      Accesses Γ style depth qualifier (declarationsOf items) line := by
  match items with
  | [] =>
    rw [membersOf_nil_eq_ok.mp h]
    simp [membersLines, declarationsOf, Accesses]
  | .declaration d :: rest =>
    obtain ⟨_, members', hd, hr, rfl⟩ := membersOf_cons_eq_ok.mp h
    obtain ⟨colors, hx, rfl⟩ := memberOf_declaration_eq_ok.mp hd
    rw [declarationsOf, Accesses.append, ← mem_membersLines hm hr, membersLines, List.mem_append,
      or_and_right]
    refine or_congr_left ?_
    constructor
    case mp =>
      rintro ⟨hl, _⟩
      refine ⟨[], d, colors, List.mem_singleton_self _, hx, ?_⟩
      exact qualified_nil ▸ List.mem_singleton.mp hl
    case mpr =>
      rintro ha
      refine ⟨?_, ha.exclaims hm⟩
      obtain ⟨_, _, _, hd, hx', rfl⟩ := ha
      cases List.mem_singleton.mp hd
      cases hx.symm.trans hx'
      exact qualified_nil ▸ List.mem_singleton_self _
  | .group name inner :: rest =>
    obtain ⟨_, members', hg, hr, rfl⟩ := membersOf_cons_eq_ok.mp h
    obtain ⟨inside, hi, rfl⟩ := memberOf_group_eq_ok.mp hg
    rw [declarationsOf, Item.declarations, Accesses.append, Accesses.map,
      ← mem_membersLines hm hr, ← mem_membersLines hm hi, membersLines, List.mem_append,
      or_and_right]
    refine or_congr_left <| and_congr_left fun he => ?_
    rw [mem_groupLines he, (membersLines_perm sortMembers_perm).mem_iff]

-- Among all lines, too: neither the lines above nor the ones below end like that.
theorem mem_sourceLines {sheet : Sheet} {root : Member} (hm : style.mode = .assetCatalog)
    (h : tree Γ sheet = .ok root) :
    line ∈ sourceLines style root ∧ Exclaims line ↔
      Accesses Γ style 2 "" (declarationsOf sheet.body) line := by
  obtain ⟨members, hs, rfl⟩ := tree_eq_ok.mp h
  have header : ∀ line ∈ headerLines, ¬Exclaims line := by decide +kernel
  have footer : ∀ line ∈ ['\x7d'] :: footerLines .assetCatalog, ¬Exclaims line := by decide +kernel
  rw [← mem_membersLines hm hs, sourceLines, List.mem_append, List.mem_append, hm]
  refine and_congr_left fun he => ?_
  rw [← (membersLines_perm sortMembers_perm).mem_iff, ← mem_groupLines he]
  constructor
  case mp =>
    rintro (hl | hl | hl)
    · exact absurd he <| header _ hl
    · exact hl
    · exact absurd he <| footer _ hl
  case mpr => exact fun hl => .inr <| .inl hl

end Accessor

end Palette
