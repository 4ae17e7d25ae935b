import Mathlib.Data.Set.Card
import Palette.Proofs.Accessor.Agreement
import Palette.Proofs.Accessor.Counting
import Palette.Command.Run

-- What is counted while a catalog is written: the groups and colors of the sheet, which are as many as
-- folders of either kind have been written.

namespace Palette

open Accessor (countFolders_members length_eq_countFolders counts_of_membersOf foldersOf membersOf
  nil_not_mem_foldersOf)
open Item (Scope)

variable {o : Options} {Γ : Context} {qualifier name : String} {items : List Item}

theorem encard_eq_length {α : Type} {s : Set α} {l : List α} (hl : l.Nodup)
    (hs : ∀ a, a ∈ s ↔ a ∈ l) : s.encard = l.length := by
  classical
  have he : s = l.toFinset := Set.ext fun a => by simp [hs]
  rw [he, Set.encard_coe_eq_coe_finsetCard, List.toFinset_card_of_nodup hl]

theorem encard_folders {folders : List (Place × Option Resolved)} {s : Set Place}
    (hd : (folders.map Prod.fst).Nodup) (test : Option Resolved → Bool)
    (hs : ∀ path, path ∈ s ↔ ∃ k, (path, k) ∈ folders ∧ test k) :
    s.encard = folders.countP (test ·.2) := by
  have hl : ((folders.filter (test ·.2)).map Prod.fst).Nodup :=
    hd.sublist <| List.filter_sublist.map _
  rw [encard_eq_length hl fun path => ?_, List.length_map, List.countP_eq_length_filter]
  rw [hs]
  simp

namespace Catalog

open Command (highlight reportText)
open Program

variable {o : Options} {sheet : Sheet} {fs fs' before cleared created : FileSystem} {p : Path}
variable {place path : Place} {t u : Table Node} {members : List Accessor.Member} {c : Counts}

-- By recursion over the items, each of which adds what it is.

mutual

theorem counts_of_writeItem {i : Item} {p : Path} {qualifier : String} {fs fs' : FileSystem}
    {c : Counts} (h : outcome (writeItem o Γ p qualifier i) fs = (.ok c, fs')) :
    c = Counts.ofItem i := by
  match i with
  | .declaration d =>
    simp only [writeItem, bind_eq_ok, pure_outcome] at h
    obtain ⟨_, _, _, _, _, _, _, _, _, hc⟩ := h
    cases hc
    rfl
  | .group name inner =>
    simp only [writeItem, bind_eq_ok, pure_outcome] at h
    obtain ⟨_, _, _, _, _, _, _, _, hi, hc⟩ := h
    cases hc
    rw [counts_of_writeItems hi, Counts.ofItem]

theorem counts_of_writeItems {items : List Item} {p : Path} {qualifier : String} {fs fs' : FileSystem}
    {c : Counts} (h : outcome (writeItems o Γ p qualifier items) fs = (.ok c, fs')) :
    c = Counts.ofItems items := by
  match items with
  | [] =>
    cases h
    rfl
  | i :: rest =>
    simp only [writeItems, bind_eq_ok, pure_outcome] at h
    obtain ⟨_, _, hi, _, _, hr, hc⟩ := h
    cases hc
    rw [counts_of_writeItem hi, counts_of_writeItems hr, Counts.ofItems]

end

-- A descriptor is written at the root of a catalog and into every folder of it.
structure WrittenDescriptor (before after : FileSystem) (place path : Place) : Prop where
  file   : ∃ content, after.root.contentAt (place ++ path) = some (some content)
  folder : ∃ front, path = front ++ [descriptorName] ∧
    (front = [] ∨ WrittenFolder before after place front)

def writtenFolders (before after : FileSystem) (place : Place) : Set Place :=
  {path | WrittenFolder before after place path}

def writtenDescriptors (before after : FileSystem) (place : Place) : Set Place :=
  {path | WrittenDescriptor before after place path}

-- All that there is below a place, whoever made it.

def foldersBelow (fs : FileSystem) (place : Place) : Set Place :=
  {path | path ≠ [] ∧ fs.root.contentAt (place ++ path) = some none}

def filesBelow (fs : FileSystem) (place : Place) : Set Place :=
  {path | ∃ content, fs.root.contentAt (place ++ path) = some (some content)}

-- There are as many folders of groups and of colors, and one descriptor more than that.
structure Tallies (c : Counts) (folders descriptors : Set Place) : Prop where
  groups      : {path ∈ folders | ¬EndsInColor path}.encard = c.groups
  colors      : {path ∈ folders | EndsInColor path}.encard = c.colors
  descriptors : descriptors.encard = c.groups + c.colors + 1

section

variable (hm : membersOf Γ "" items = .ok members) (hn : Named items) (ha : before.At p place t)
variable (hu : Fills o Γ "" items (t.insert descriptorName (.file (groupContent o))) u)

include hm hn ha hu

theorem writtenFolder_iff :
    WrittenFolder before (before.putFolder place u) place path ↔
      path ∈ (foldersOf members).map Prod.fst := by
  have hg := @mem_folders_iff_group o Γ items members t u path p before place hm hn ha hu
  have hc := @mem_folders_iff_color o Γ items members t u path p before place hm hn ha hu
  rw [List.mem_map]
  constructor
  case mp =>
    intro hw
    by_cases he : EndsInColor path
    · have ⟨_, hf⟩ := hc.mpr ⟨hw, he⟩
      exact ⟨_, hf, rfl⟩
    · exact ⟨_, hg.mpr ⟨hw, he⟩, rfl⟩
  case mpr =>
    rintro ⟨⟨_, none | _⟩, hf, rfl⟩
    · exact (hg.mp hf).left
    · exact (hc.mp ⟨_, hf⟩).left

-- Every folder has a descriptor, and so has the root, whatever was there before.
omit hn in
theorem exists_descriptor
    (hw : path = [] ∨ WrittenFolder before (before.putFolder place u) place path) :
    ∃ content, (before.putFolder place u).root.contentAt (place ++ (path ++ [descriptorName])) =
      some (some content) := by
  rw [contentAt_after ha]
  rcases hw with rfl | hw
  case inl =>
    have hd : (t.insert descriptorName (Node.file (groupContent o))).find? descriptorName = _ :=
      Table.find?_insert_self
    refine ⟨groupContent o, ?_⟩
    rw [List.nil_append, hu.contentAt_of_taken hd]
    exact Node.contentAt_folder_cons.mpr ⟨_, hd, Node.contentAt_file.mpr ⟨rfl, rfl⟩⟩
  case inr =>
    have ⟨hp, hh⟩ := (written_iff ha hu).mp hw
    have ⟨content, hk⟩ : ∃ content, Holds o Γ "" items (path ++ [descriptorName]) (some content) := by
      cases hh with
      | group hs    => exact ⟨_, .groupDescriptor hs⟩
      | color hs hd =>
        have ⟨_, hx⟩ := Accessor.resolves_of_membersOf hm hs hd
        exact ⟨_, by simpa using .colorDescriptor hs hd hx⟩
    obtain ⟨name, rest, rfl⟩ := List.exists_cons_of_ne_nil hp
    have hf := hu.free_of_holds hh
    exact ⟨content, (hu.contentAt_of_free hf (Table.find?_insert_eq_none.mp hf).left).mpr hk⟩

theorem writtenDescriptor_iff :
    WrittenDescriptor before (before.putFolder place u) place path ↔
      path ∈ ([] :: (foldersOf members).map Prod.fst).map (· ++ [descriptorName]) := by
  have hw {path : Place} : WrittenFolder before (before.putFolder place u) place path ↔ _ :=
    writtenFolder_iff hm hn ha hu
  constructor
  case mp =>
    rintro ⟨_, front, rfl, h⟩
    exact List.mem_map_of_mem <| List.mem_cons.mpr <| h.imp_right hw.mp
  case mpr =>
    intro h
    obtain ⟨front, hf, rfl⟩ := List.mem_map.mp h
    have h := (List.mem_cons.mp hf).imp_right hw.mpr
    exact ⟨exists_descriptor hm ha hu h, front, rfl, h⟩

theorem tallies_written :
    Tallies (Counts.ofItems items) (writtenFolders before (before.putFolder place u) place)
      (writtenDescriptors before (before.putFolder place u) place) := by
  have hd := (hu.apart hm).left
  rw [← counts_of_membersOf hm, ← countFolders_members]
  refine ⟨?groups, ?colors, ?descriptors⟩
  case groups =>
    refine encard_folders hd Option.isNone fun path => ?_
    rw [Set.mem_ofPred, writtenFolders, Set.mem_ofPred, ← mem_folders_iff_group hm hn ha hu]
    simp
  case colors =>
    refine encard_folders hd Option.isSome fun path => ?_
    rw [Set.mem_ofPred, writtenFolders, Set.mem_ofPred, ← mem_folders_iff_color hm hn ha hu]
    simp [Option.isSome_iff_exists]
  case descriptors =>
    have hr : [] ∉ (foldersOf members).map Prod.fst := fun h => by
      obtain ⟨⟨path, k⟩, hf, rfl : path = []⟩ := List.mem_map.mp h
      exact nil_not_mem_foldersOf hf
    have hl : (([] :: (foldersOf members).map Prod.fst).map (· ++ [descriptorName])).Nodup :=
      (hd.cons hr).map fun _ _ => List.append_cancel_right
    have hs path : path ∈ writtenDescriptors before (before.putFolder place u) place ↔ _ :=
      writtenDescriptor_iff hm hn ha hu
    rw [encard_eq_length hl hs, List.length_map, List.length_cons, List.length_map,
      length_eq_countFolders]
    simp

end

-- In a folder that was empty, all has been written.

section

variable (ha : before.At p place .empty)
variable (hu : Fills o Γ "" items (described (groupContent o)) u)

include ha hu

theorem writtenFolders_eq :
    writtenFolders before (before.putFolder place u) place =
      foldersBelow (before.putFolder place u) place := by
  ext path
  rw [writtenFolders, foldersBelow, Set.mem_ofPred, Set.mem_ofPred, written_iff ha hu,
    contentAt_after ha, hu.holds]

theorem writtenDescriptors_eq :
    writtenDescriptors before (before.putFolder place u) place =
      filesBelow (before.putFolder place u) place := by
  ext path
  refine ⟨fun h => h.file, fun ⟨content, h⟩ => ⟨⟨content, h⟩, ?_⟩⟩
  rw [contentAt_after ha, hu.holds] at h
  cases h with
  | @groupDescriptor front _ hs =>
    refine ⟨front, rfl, (eq_or_ne front []).imp_right fun hf => ?_⟩
    exact (written_iff ha hu).mpr ⟨hf, .group hs⟩
  | colorDescriptor hs hd =>
    exact ⟨_, by simp, .inr <| (written_iff ha hu).mpr ⟨by simp, .color hs hd⟩⟩

end

-- What is counted are the groups and colors of the sheet, and the folders that have been written for
-- them. Where the destination was made anew there are no others.
theorem counts_exact {source : String} (hs : Sheet.parse source = .ok sheet)
    (h : outcome (write o (.ofSheet sheet) sheet p) fs = (.ok c, fs')) :
    c = sheet.counts ∧
    (∀ colored input, reportText colored input sheet (.ofSheet sheet) .summary =
      highlight colored .boldGreen "ok" ++ " " ++ input.text ++
        s!": {(Context.ofSheet sheet).size} variables, {c.groups} groups, {c.colors} colors\n") ∧
    ∃ before place, fs.Opened p before place ∧
      Tallies c (writtenFolders before fs' place) (writtenDescriptors before fs' place) ∧
      (fs.Replaceable p →
        fs'.locate p = .ok place ∧ Tallies c (foldersBelow fs' place) (filesBelow fs' place)) := by
  have hn := Sheet.named_of_parse hs
  obtain ⟨cleared, before, place, t, u, hr, hc, ha, hu, rfl⟩ := fills_of_write hn h
  obtain ⟨_, _, _, _, _, _, hi⟩ := write_eq_ok.mp h
  have ⟨members, hm⟩ := members_of_writeItems hi
  obtain rfl := counts_of_writeItems hi
  have ht := tallies_written hm hn ha hu
  have hp : fs.Opened p before place := ⟨⟨cleared, hr, hc⟩, ha.leads.right⟩
  refine ⟨rfl, fun _ _ => rfl, before, place, hp, ht, fun hf => ?_⟩
  have ⟨cleared', created, hr', hb, hc'⟩ := hf.created
  obtain rfl := hr.unique hr'
  obtain ⟨fs₁, parent, name, entries, hx, rfl⟩ := hr.creates hb hf.written hc
  cases hx.opens.leads.right.symm.trans ha.leads.right
  cases hx.opens.folder.symm.trans ha.folder
  rw [writtenFolders_eq ha hu, writtenDescriptors_eq ha hu] at ht
  exact ⟨hx.locate_eq, ht⟩

theorem counts_exact_sample :
    ∃ c fs' place, outcome (write {} (.ofSheet sample) sample (.ofText "x")) .empty = (.ok c, fs') ∧
      c = ⟨1, 1⟩ ∧ fs'.locate (.ofText "x") = .ok place ∧ (filesBelow fs' place).encard = 3 := by
  have ⟨c, fs', hw⟩ := write_sample
  have ⟨hc, _, _, place, _, _, hr⟩ := counts_exact parse_sample hw
  have ⟨hl, ht⟩ := hr replaceable_x
  refine ⟨c, fs', place, hw, hc, hl, ht.descriptors.trans ?_⟩
  rw [hc]
  rfl

-- Where a path leads back through its own destination, there are other folders.

def lone : Sheet :=
  ⟨[.item (.declaration ⟨"c", .plain (.color ⟨0, 0, 0, .one⟩)⟩)]⟩

theorem parse_lone : Sheet.parse "c:#000000" = .ok lone := by
  have hd := declaration_of_hexColor 'c' [] rfl <| hexColor_black []
  exact Sheet.parse_of_topItems (.cons (.item (.declaration hd)) (.last .nil (.inl rfl) rfl) .nil)
    (by decide)

-- What creation leaves inside of the destination stays there, if no item is of its name.
theorem write_of_fills_leftover (hr : fs.Cleared p cleared)
    (hc : cleared.createFolders p = (.ok (), created)) (h : created.At p place t)
    (hd : t.find? descriptorName = none) (hn : Named sheet.body) (hp : PathsFit "" sheet.body p)
    (hu : Fills o Γ "" sheet.body (t.insert descriptorName (.file (groupContent o))) u) :
    outcome (write o Γ sheet p) fs = (.ok (Counts.ofItems sheet.body), created.putFolder place u) ∧
      (created.putFolder place u).At p place u := by
  have hw : created.writeBytes (p.join descriptorName) (groupContent o) = .ok _ :=
    h.leads.writeBytes_join h.folder plainName_descriptorName (hp.group .here) (by decide) hd
  have hi := h.insert hd (.file (groupContent o))
  have hg : Node.Grows (.folder (t.insert descriptorName (.file (groupContent o)))) (.folder u) :=
    .folder fun _ child hf => ⟨child, hu.find?_eq_some.mpr <| .inl hf, .refl⟩
  constructor
  case left =>
    rw [write_outcome hr hc, bind_eq_ok]
    refine ⟨(), _, attempt_eq_ok.mpr <| FileSystem.writeBytes_eq_ok.mpr hw, ?_⟩
    refine (FillsFolder.of_named (by simp) hn hp _ _ _ _ hi).mpr ⟨u, hu, ?_, rfl⟩
    exact (FileSystem.putFolder_putFolder h.folder).symm
  case right =>
    exact FileSystem.putFolder_putFolder h.folder ▸ hi.putFolder hg

theorem counts_off_tangledPath :
    Sheet.parse "c:#000000" = .ok lone ∧
    ∃ c fs', outcome (write {} (.ofSheet lone) lone tangledPath) .empty = (.ok c, fs') ∧
      fs'.locate tangledPath = .ok ["x"] ∧ c.groups = 0 ∧
      {path ∈ foldersBelow fs' ["x"] | ¬EndsInColor path}.encard ≠ c.groups := by
  have hp : PathsFit "" lone.body tangledPath := .cons_declaration (by decide) <| .nil (by decide)
  have ⟨u, hu⟩ : ∃ u, Fills {} (.ofSheet lone) "" lone.body
      (.insert descriptorName (.file (groupContent {})) <| .insert "y" (.folder .empty) .empty) u :=
    ⟨_, .declaration rfl (by decide) rfl .nil⟩
  have ⟨hw, ha⟩ := write_of_fills_leftover (.absent rfl) createFolders_tangledPath
    opens_tangledPath rfl (Sheet.named_of_parse parse_lone) hp hu
  have hy : u.find? "y" = some (.folder .empty) := hu.find?_eq_some.mpr <| .inl rfl
  have hc : (tangled.putFolder ["x"] u).root.contentAt ["x", "y"] = some none :=
    (contentAt_before ha).trans <| Node.contentAt_folder_cons.mpr ⟨_, hy, rfl⟩
  refine ⟨parse_lone, _, _, hw, FileSystem.locate_eq_ok.mpr ⟨rfl, ha.leads.right⟩, rfl,
    fun he => (Set.encard_eq_zero.mp he).le ⟨⟨by simp, hc⟩, ?_⟩⟩
  exact not_endsInColor (Sheet.named_of_parse parse_sample) (.inner List.mem_cons_self .here)

end Catalog

end Palette
