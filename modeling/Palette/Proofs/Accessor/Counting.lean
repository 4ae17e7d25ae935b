import Palette.Proofs.Accessor.Folders
import Palette.Proofs.Arrangement.Basic

-- How many groups and colors there are in a tree of accessors. These are as many as in its sheet, and as
-- many as folders of either kind.

namespace Palette

namespace Counts

variable {a b : Counts}

@[simp]
theorem groups_add : (a + b).groups = a.groups + b.groups :=
  rfl

@[simp]
theorem colors_add : (a + b).colors = a.colors + b.colors :=
  rfl

end Counts

namespace Accessor

mutual

def Member.counts : Member → Counts
  | .entry _ _ _       => ⟨0, 1⟩
  | .group _ _ members => ⟨1, 0⟩ + countsOf members

def countsOf : List Member → Counts
  | []        => {}
  | m :: rest => m.counts + countsOf rest

end

variable {Γ : Context} {members members' : List Member} {m : Member}

theorem countsOf_perm (h : members.Perm members') : countsOf members = countsOf members' := by
  induction h
  case nil          => rfl
  case cons ih      => rw [countsOf, countsOf, ih]
  case swap         => simp only [countsOf, Counts.add_left_comm]
  case trans ih ih' => exact ih.trans ih'

-- By recursion over the items. The members of a group are put in order, which makes no difference.

mutual

theorem counts_of_memberOf {i : Item} {qualifier : String} {m : Member}
    (h : memberOf Γ qualifier i = .ok m) : m.counts = Counts.ofItem i := by
  match i with
  | .declaration d =>
    obtain ⟨_, _, rfl⟩ := memberOf_declaration_eq_ok.mp h
    rfl
  | .group name inner =>
    obtain ⟨members, hm, rfl⟩ := memberOf_group_eq_ok.mp h
    rw [Member.counts, countsOf_perm sortMembers_perm, counts_of_membersOf hm, Counts.ofItem]

theorem counts_of_membersOf {items : List Item} {qualifier : String} {members : List Member}
    (h : membersOf Γ qualifier items = .ok members) : countsOf members = Counts.ofItems items := by
  match items with
  | [] => exact membersOf_nil_eq_ok.mp h ▸ rfl
  | i :: rest =>
    obtain ⟨m, members', hm, hr, rfl⟩ := membersOf_cons_eq_ok.mp h
    rw [countsOf, counts_of_memberOf hm, counts_of_membersOf hr, Counts.ofItems]

end

-- A folder is that of a color if there are colors with it.
def countFolders (folders : List (Place × Option Resolved)) : Counts :=
  ⟨folders.countP (·.2.isNone), folders.countP (·.2.isSome)⟩

theorem length_eq_countFolders {folders : List (Place × Option Resolved)} :
    folders.length = (countFolders folders).groups + (countFolders folders).colors := by
  rw [List.length_eq_countP_add_countP (·.2.isNone), countFolders]
  refine congrArg _ <| List.countP_congr fun folder _ => ?_
  cases folder.2 <;> simp

theorem countFolders_append {folders folders' : List (Place × Option Resolved)} :
    countFolders (folders ++ folders') = countFolders folders + countFolders folders' := by
  simp only [countFolders, List.countP_append]
  rfl

mutual

theorem countFolders_member (m : Member) : countFolders m.folders = m.counts := by
  match m with
  | .entry ..             => rfl
  | .group name _ members =>
    have hi : countFolders ((foldersOf members).map (.map (name :: ·) id)) =
        countFolders (foldersOf members) := by
      simp [countFolders, List.countP_map, Function.comp_def]
    have hg : countFolders [([name], none)] = ⟨1, 0⟩ := rfl
    rw [Member.folders, ← List.singleton_append, countFolders_append, hi, hg,
      countFolders_members members, Member.counts]

theorem countFolders_members (members : List Member) :
    countFolders (foldersOf members) = countsOf members := by
  match members with
  | []        => rfl
  | m :: rest =>
    rw [foldersOf, countFolders_append, countFolders_member m, countFolders_members rest, countsOf]

end

end Accessor

end Palette
