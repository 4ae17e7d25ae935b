import Palette.Proofs.Accessor.Folders
import Palette.Proofs.Catalog.Interruption

-- The tree of a sheet and its catalog agree, although either is made in a walk of its own.

namespace Palette

open Accessor (foldersOf foldersOf_perm memberOf membersOf mem_foldersOf_none mem_foldersOf_some
  rootName sortMembers sortMembers_perm tree tree_eq_ok tree_eq_error)
open Catalog (Fills Holds Named colorFolderName descriptorName groupContent described)
open Item (Reached Scope)
open Program (outcome)

-- Files may be in the way of a catalog: where its folder is to be, or where the descriptor of that
-- folder is, or at an item. All items in front of that one resolve and have been written.
inductive Catalog.Interrupted (o : Options) (Γ : Context) (sheet : Sheet) (p : Path) (fs : FileSystem) :
    OutputError → FileSystem → Prop
  | kept : fs.pathExists p → fs.removeFolder p = (.error e, fs') →
    Interrupted o Γ sheet p fs (.file p e) fs'
  | unmade : fs.Cleared p cleared → cleared.createFolders p = (.error e, fs') →
    Interrupted o Γ sheet p fs (.file p e) fs'
  | undescribed : fs.Cleared p cleared → cleared.createFolders p = (.ok (), fs') →
    fs'.writeBytes (p.join descriptorName) (groupContent o) = .error e →
    Interrupted o Γ sheet p fs (.file (p.join descriptorName) e) fs'
  | item : Reached sheet.body done path i → tree Γ ⟨done.map .item⟩ = .ok root →
    outcome (write o Γ ⟨done.map .item⟩ p) fs = (.ok c, before) →
    Stuck Γ before ((p.descend path).join (i.folderName "" path)) i (.file there e) fs' →
    Interrupted o Γ sheet p fs (.file there e) fs'

variable {o : Options} {Γ : Context} {qualifier name : String} {items : List Item}
variable {members : List Accessor.Member} {t t' u : Table Node} {path rest : Place}

-- Paths that are different ones and begin with names that are free in a table.
def Apart (t : Table Node) (paths : List Place) : Prop :=
  paths.Nodup ∧ ∀ path ∈ paths, ∃ name rest, path = name :: rest ∧ t.find? name = none

namespace Apart

variable {paths paths' : List Place}

theorem perm (h : Apart t paths) (hp : paths'.Perm paths) : Apart t paths' :=
  ⟨hp.nodup_iff.mpr h.left, fun path hm => h.right path <| hp.mem_iff.mp hm⟩

-- One more name is taken by all the paths that begin with it.
theorem append {node : Node} (hn : t.find? name = none) (hp : paths.Nodup)
    (h : ∀ path ∈ paths, ∃ rest, path = name :: rest)
    (h' : Apart (t.insert name node) paths') : Apart t (paths ++ paths') := by
  refine ⟨List.nodup_append.mpr ⟨hp, h'.left, ?_⟩, fun path hm => ?_⟩
  case refine_1 =>
    rintro path hm _ hm' rfl
    obtain ⟨rest, rfl⟩ := h path hm
    have ⟨_, _, he, hf⟩ := h'.right _ hm'
    cases he
    cases Table.find?_insert_self.symm.trans hf
  case refine_2 =>
    rcases List.mem_append.mp hm with hm | hm
    · obtain ⟨rest, rfl⟩ := h path hm
      exact ⟨name, rest, rfl, hn⟩
    · have ⟨name, rest, he, hf⟩ := h'.right path hm
      exact ⟨name, rest, he, (Table.find?_insert_eq_none.mp hf).right⟩

end Apart

-- Every folder has a path of its own, since its name was free when it was created.
theorem Catalog.Fills.apart (h : Fills o Γ qualifier items t t')
    (hm : membersOf Γ qualifier items = .ok members) :
    Apart t ((foldersOf members).map Prod.fst) := by
  induction h generalizing members
  case nil =>
    cases Accessor.membersOf_nil_eq_ok.mp hm
    exact ⟨.nil, by simp [foldersOf]⟩
  case declaration hn _ _ _ ih =>
    obtain ⟨_, members', hd, hr, rfl⟩ := Accessor.membersOf_cons_eq_ok.mp hm
    obtain ⟨colors, _, rfl⟩ := Accessor.memberOf_declaration_eq_ok.mp hd
    rw [foldersOf, List.map_append]
    refine .append hn ?_ ?_ (ih hr)
    · exact List.pairwise_singleton ..
    · exact fun path hp => ⟨[], List.mem_singleton.mp hp⟩
  case group hn _ _ _ ih ih' =>
    obtain ⟨_, members', hg, hr, rfl⟩ := Accessor.membersOf_cons_eq_ok.mp hm
    obtain ⟨inner, hi, rfl⟩ := Accessor.memberOf_group_eq_ok.mp hg
    rw [foldersOf, List.map_append]
    obtain ⟨hd, hs⟩ := (ih hi).perm <|
      (foldersOf_perm sortMembers_perm).map Prod.fst
    refine .append hn ?_ ?_ (ih' hr) <;> rw [Accessor.paths_group]
    · refine List.nodup_cons.mpr ⟨fun h => ?_, ?_⟩
      · obtain ⟨path, hp, he⟩ := List.mem_map.mp h
        obtain ⟨_, _, rfl, _⟩ := hs path hp
        cases he
      · exact List.pairwise_map.mpr <| hd.imp fun hn he => hn (List.cons.inj he).right
    · intro path hp
      rcases List.mem_cons.mp hp with rfl | hp
      · exact ⟨[], rfl⟩
      · obtain ⟨rest, _, rfl⟩ := List.mem_map.mp hp
        exact ⟨rest, rfl⟩

namespace Catalog

open Accessor (membersOf_cons_eq_ok membersOf_cons_eq_error memberOf_declaration_eq_ok
  memberOf_group_eq_ok memberOf_declaration_eq_error memberOf_group_eq_error)
open Program

variable {p : Path} {fs fs' : FileSystem} {d : Declaration} {x : OutputError}

-- Both walks resolve the declarations in the order of the sheet.

mutual

theorem member_of_writeItem {i : Item} {p : Path} {qualifier : String} {fs fs' : FileSystem}
    {c : Counts} (h : outcome (writeItem o Γ p qualifier i) fs = (.ok c, fs')) :
    ∃ m, memberOf Γ qualifier i = .ok m := by
  cases i
  case declaration d =>
    simp only [writeItem, bind_eq_ok, resolving_eq_ok] at h
    obtain ⟨_, _, _, colors, _, ⟨hx, _⟩, _⟩ := h
    exact ⟨_, memberOf_declaration_eq_ok.mpr ⟨colors, hx, rfl⟩⟩
  case group name inner =>
    simp only [writeItem, bind_eq_ok] at h
    obtain ⟨_, _, _, _, _, _, _, _, hi, _⟩ := h
    have ⟨members, hm⟩ := members_of_writeItems hi
    exact ⟨_, memberOf_group_eq_ok.mpr ⟨members, hm, rfl⟩⟩

theorem members_of_writeItems {items : List Item} {p : Path} {qualifier : String}
    {fs fs' : FileSystem} {c : Counts}
    (h : outcome (writeItems o Γ p qualifier items) fs = (.ok c, fs')) :
    ∃ members, membersOf Γ qualifier items = .ok members := by
  cases items
  case nil => exact ⟨[], rfl⟩
  case cons i rest =>
    simp only [writeItems, bind_eq_ok] at h
    obtain ⟨_, _, hi, _, _, hr, _⟩ := h
    have ⟨m, hm⟩ := member_of_writeItem hi
    have ⟨members, hr⟩ := members_of_writeItems hr
    exact ⟨m :: members, membersOf_cons_eq_ok.mpr ⟨m, members, hm, hr, rfl⟩⟩

end

-- By induction on how the item is reached. All in front of it comes first in the tree, too, so that its
-- error is the first one.
theorem membersOf_of_reached {i : Item} {done : List Item} {e : ResolveError}
    (h : Reached items done path i) (hi : ∀ qualifier, memberOf Γ qualifier i = .error e)
    (hm : membersOf Γ qualifier done = .ok members) : membersOf Γ qualifier items = .error e := by
  induction h generalizing qualifier members
  case here => exact membersOf_cons_eq_error.mpr <| .inl <| hi _
  case inside ih =>
    obtain ⟨_, _, hg, _⟩ := membersOf_cons_eq_ok.mp hm
    obtain ⟨_, hm, _⟩ := memberOf_group_eq_ok.mp hg
    exact membersOf_cons_eq_error.mpr <| .inl <| memberOf_group_eq_error.mpr <| ih hi hm
  case later ih =>
    obtain ⟨m, _, hf, hr, _⟩ := membersOf_cons_eq_ok.mp hm
    exact membersOf_cons_eq_error.mpr <| .inr ⟨m, hf, ih hi hr⟩

-- Once the destination has its descriptor, only items are in the way.
theorem error_of_writeItems {sheet : Sheet} {cleared created fs₁ : FileSystem}
    (hr : fs.Cleared p cleared) (hc : cleared.createFolders p = (.ok (), created))
    (hd : outcome (writeDescriptor p (groupDescriptor o.author)) created = (.ok (), fs₁))
    (hi : outcome (writeItems o Γ p "" sheet.body) fs₁ = (.error x, fs')) :
    Interrupted o Γ sheet p fs x fs' ∨ ∃ e, membersOf Γ "" sheet.body = .error e ∧ x = .resolve e := by
  obtain ⟨done, path, i, c, before, hreach, hok, hs⟩ := stuck_of_writeItems hi
  obtain ⟨members, hm⟩ := members_of_writeItems hok
  cases x
  case file =>
    have ht : tree Γ ⟨done.map .item⟩ = .ok _ :=
      tree_eq_ok.mpr ⟨members, body_map_item.symm ▸ hm, rfl⟩
    exact .inl <| .item hreach ht (write_of_items hr hc hd hok) hs
  case resolve e =>
    cases hs with
    | unresolved _ hd hx =>
      have hi qualifier : memberOf Γ qualifier i = .error e :=
        hd ▸ memberOf_declaration_eq_error.mpr hx
      exact .inr ⟨e, membersOf_of_reached hreach hi hm, rfl⟩

theorem error_of_write {sheet : Sheet} (h : outcome (write o Γ sheet p) fs = (.error x, fs')) :
    Interrupted o Γ sheet p fs x fs' ∨ ∃ e, membersOf Γ "" sheet.body = .error e ∧ x = .resolve e := by
  rw [write_eq_clearing, clearing_eq_error] at h
  rcases h with ⟨_, he, hr, rfl⟩ | ⟨cleared, hr, h⟩
  case inl => exact .inl <| .kept he hr
  case inr =>
    simp only [bind_eq_error, attempt_eq_error, attempt_eq_ok, FileSystem.createFolders_eq] at h
    rcases h with ⟨_, hc, rfl⟩ | ⟨_, created, hc, hd | ⟨_, fs₁, hd, hi⟩⟩
    · exact .inl <| .unmade hr hc
    · simp only [writeDescriptor, attempt_eq_error, FileSystem.writeBytes_eq_error] at hd
      obtain ⟨_, ⟨hd, rfl⟩, rfl⟩ := hd
      exact .inl <| .undescribed hr hc hd
    · exact error_of_writeItems hr hc hd hi

-- A path of groups does not end in the folder of a color, since names have no dots.
theorem not_endsInColor {scope : List Item} (hn : Named items) (hs : Scope items path scope) :
    ¬EndsInColor path := by
  rintro ⟨front, name, rfl⟩
  exact ne_colorFolderName (alphanumeric_of_scope hn hs _ <| List.mem_concat_self ..) rfl

section

variable {before : FileSystem} {place : Place}
variable (hm : membersOf Γ "" items = .ok members) (hn : Named items) (ha : before.At p place t)
variable (hu : Fills o Γ "" items (t.insert descriptorName (.file (groupContent o))) u)

include hm hn ha hu

theorem mem_folders_iff_group :
    (path, none) ∈ foldersOf members ↔
      WrittenFolder before (before.putFolder place u) place path ∧ ¬EndsInColor path := by
  rw [mem_foldersOf_none hm, written_iff ha hu]
  constructor
  case mp  => exact fun ⟨hp, _, hs⟩ => ⟨⟨hp, .group hs⟩, not_endsInColor hn hs⟩
  case mpr =>
    rintro ⟨⟨hp, hh⟩, hc⟩
    cases hh with
    | group hs   => exact ⟨hp, _, hs⟩
    | color _ _  => exact absurd ⟨_, _, rfl⟩ hc

theorem mem_folders_iff_color :
    (∃ colors, (path, some colors) ∈ foldersOf members) ↔
      WrittenFolder before (before.putFolder place u) place path ∧ EndsInColor path := by
  simp only [mem_foldersOf_some hm]
  rw [written_iff ha hu]
  constructor
  case mp =>
    rintro ⟨_, front, _, d, hs, hd, _, rfl⟩
    exact ⟨⟨by simp, .color hs hd⟩, _, _, rfl⟩
  case mpr =>
    rintro ⟨⟨_, hh⟩, hc⟩
    cases hh with
    | group hs    => exact absurd hc <| not_endsInColor hn hs
    | color hs hd =>
      have ⟨colors, hx⟩ := Accessor.resolves_of_membersOf hm hs hd
      exact ⟨colors, _, _, _, hs, hd, hx, rfl⟩

omit hn in
theorem contentAt_color {colors : Resolved} (hf : (path, some colors) ∈ foldersOf members) :
    (before.putFolder place u).root.contentAt (place ++ path ++ [descriptorName]) =
      some (some (colorContent o colors)) := by
  obtain ⟨front, scope, d, hs, hd, hx, rfl⟩ := (mem_foldersOf_some hm).mp hf
  simpa using contentAt_colorDescriptor ha hu hs hd hx

end

-- What cannot be resolved fails in both walks, and the first of it is the same, unless files have been
-- in the way before that.
theorem fails_of_tree {sheet : Sheet} {e : ResolveError} (he : tree Γ sheet = .error e) :
    ∃ x fs', outcome (write o Γ sheet p) fs = (.error x, fs') ∧
      (x = .resolve e ∨ Interrupted o Γ sheet p fs x fs') := by
  rw [tree_eq_error] at he
  rcases hw : outcome (write o Γ sheet p) fs with ⟨x | c, fs'⟩
  case error =>
    refine ⟨x, fs', rfl, ?_⟩
    rcases error_of_write hw with hx | ⟨e', he', hx⟩
    · exact .inr hx
    · cases he.symm.trans he'
      exact .inl hx
  case ok =>
    obtain ⟨_, _, _, _, _, _, hi⟩ := write_eq_ok.mp hw
    have ⟨_, hm⟩ := members_of_writeItems hi
    cases he.symm.trans hm

theorem tree_agrees {source : String} {sheet : Sheet} (hs : Sheet.parse source = .ok sheet)
    {fs : FileSystem} (o : Options) (p : Path) :
    (∀ c fs', outcome (write o (.ofSheet sheet) sheet p) fs = (.ok c, fs') →
      ∃ members before place,
        tree (.ofSheet sheet) sheet = .ok (.group rootName "" members) ∧
        fs.Opened p before place ∧
        ((foldersOf members).map Prod.fst).Nodup ∧
        (∀ path, (path, none) ∈ foldersOf members ↔
          WrittenFolder before fs' place path ∧ ¬EndsInColor path) ∧
        (∀ path, (∃ colors, (path, some colors) ∈ foldersOf members) ↔
          WrittenFolder before fs' place path ∧ EndsInColor path) ∧
        ∀ path colors, (path, some colors) ∈ foldersOf members →
          fs'.root.contentAt (place ++ path ++ [descriptorName]) =
            some (some (colorContent o colors))) ∧
    ∀ e, tree (.ofSheet sheet) sheet = .error e →
      ∃ x fs', outcome (write o (.ofSheet sheet) sheet p) fs = (.error x, fs') ∧
        (x = .resolve e ∨ Interrupted o (.ofSheet sheet) sheet p fs x fs') := by
  refine ⟨fun c fs' hw => ?succeeds, fun e he => ?fails⟩
  case succeeds =>
    have hn := Sheet.named_of_parse hs
    obtain ⟨cleared, before, place, t, u, hr, hc, ha, hu, rfl⟩ := fills_of_write hn hw
    obtain ⟨_, _, _, _, _, _, hi⟩ := write_eq_ok.mp hw
    have ⟨members, hm⟩ := members_of_writeItems hi
    have hp : (foldersOf (sortMembers members)).Perm _ := foldersOf_perm sortMembers_perm
    refine ⟨sortMembers members, before, place, tree_eq_ok.mpr ⟨members, hm, rfl⟩,
      ⟨⟨cleared, hr, hc⟩, ha.leads.right⟩, ?_, fun path => ?_, fun path => ?_, fun path colors hf => ?_⟩
    · exact (hp.map Prod.fst).nodup_iff.mpr (hu.apart hm).left
    · rw [hp.mem_iff]
      exact mem_folders_iff_group hm hn ha hu
    · simp only [hp.mem_iff]
      exact mem_folders_iff_color hm hn ha hu
    · exact contentAt_color hm ha hu <| hp.mem_iff.mp hf
  case fails => exact fails_of_tree he

theorem tree_agrees_sample :
    ∃ c fs' members before place,
      outcome (write {} (.ofSheet sample) sample (.ofText "x")) .empty = (.ok c, fs') ∧
      tree (.ofSheet sample) sample = .ok (.group rootName "" members) ∧
      (["y"], none) ∈ foldersOf members ∧ WrittenFolder before fs' place ["y"] := by
  have ⟨hs, _⟩ := @tree_agrees _ _ parse_sample .empty {} (.ofText "x")
  have ⟨c, fs', hw⟩ := write_sample
  have ⟨members, before, place, ht, _, _, hg, _⟩ := hs c fs' hw
  have hf : (["y"], none) ∈ foldersOf members := by
    obtain ⟨_, hm, he⟩ := tree_eq_ok.mp ht
    cases he
    rw [(foldersOf_perm sortMembers_perm).mem_iff, mem_foldersOf_none hm]
    exact ⟨by simp, _, .inner List.mem_cons_self .here⟩
  exact ⟨c, fs', members, before, place, hw, ht, hf, ((hg _).mp hf).left⟩

end Catalog

end Palette
