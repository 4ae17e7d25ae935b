import Palette.Proofs.Catalog.Writing
import Palette.Proofs.FileSystem.Destination

-- What a catalog that has been written tells of where it was written, whatever was there before.

namespace Palette

open FileSystem (At)
open Program

namespace FileSystem

variable {fs fs' : FileSystem} {p : Path} {content : ByteArray}

theorem fits_of_writeBytes (h : fs.writeBytes p content = .ok fs') : p.Fits := by
  simp only [writeBytes, bind, Except.bind] at h
  split at h
  case h_1      => cases h
  case h_2 v he => exact (checkPath_eq_ok.mp (locateEntry_eq_ok.mp he).left).right.right

end FileSystem

namespace Catalog

open Item (Scope)

variable {o : Options} {Γ : Context} {qualifier name : String} {items inner rest : List Item}
variable {d : Declaration} {sheet : Sheet} {fs fs' cleared created : FileSystem} {p : Path}
variable {place : Place} {c : Counts} {x : OutputError}

namespace PathsFit

theorem nil (h : (p.join descriptorName).Fits) : PathsFit qualifier [] p where
  group hs := by
    cases hs with
    | here       => exact h
    | inner hg _ => cases hg
  color hs hd := by
    cases hs with
    | here       => cases hd
    | inner hg _ => cases hg

theorem cons_declaration
    (h : ((p.join (colorFolderName (qualifier ++ d.name))).join descriptorName).Fits)
    (hr : PathsFit qualifier rest p) : PathsFit qualifier (.declaration d :: rest) p where
  group hs := by
    cases hs with
    | here        => exact hr.group .here
    | inner hg hs => exact hr.group <| .inner ((List.mem_cons.mp hg).resolve_left nofun) hs
  color hs hd := by
    cases hs with
    | here =>
      rcases List.mem_cons.mp hd with hd | hd
      · cases hd
        exact qualified_nil ▸ h
      · exact hr.color .here hd
    | inner hg hs => exact hr.color (.inner ((List.mem_cons.mp hg).resolve_left nofun) hs) hd

theorem cons_group (h : PathsFit (qualifier ++ name) inner (p.join name))
    (hr : PathsFit qualifier rest p) : PathsFit qualifier (.group name inner :: rest) p where
  group hs := by
    cases hs with
    | here        => exact hr.group .here
    | inner hg hs =>
      rcases List.mem_cons.mp hg with hg | hg
      · cases hg
        exact h.group hs
      · exact hr.group <| .inner hg hs
  color hs hd := by
    cases hs with
    | here        => exact hr.color .here <| (List.mem_cons.mp hd).resolve_left nofun
    | inner hg hs =>
      rcases List.mem_cons.mp hg with hg | hg
      · cases hg
        exact qualified_cons ▸ h.color hs hd
      · exact hr.color (.inner hg hs) hd

end PathsFit

theorem fits_of_writeDescriptor {descriptor : Data} {u : Unit}
    (h : outcome (writeDescriptor p descriptor) fs = (.ok u, fs')) : (p.join descriptorName).Fits := by
  rw [writeDescriptor, attempt_eq_ok, FileSystem.writeBytes_eq_ok] at h
  exact FileSystem.fits_of_writeBytes h

-- By recursion over the items, all of whose folders have been given a descriptor.
theorem pathsFit_of_writeItems {items : List Item} {qualifier : String} {fs fs' : FileSystem}
    {p : Path} {c : Counts} (hp : (p.join descriptorName).Fits)
    (h : outcome (writeItems o Γ p qualifier items) fs = (.ok c, fs')) :
    PathsFit qualifier items p := by
  match items with
  | [] => exact .nil hp
  | .declaration d :: rest =>
    simp only [writeItems, writeItem, bind_eq_ok] at h
    obtain ⟨_, _, ⟨_, _, _, _, _, _, _, _, hd, _⟩, _, _, hr, _⟩ := h
    exact .cons_declaration (fits_of_writeDescriptor hd) (pathsFit_of_writeItems hp hr)
  | .group name inner :: rest =>
    simp only [writeItems, writeItem, bind_eq_ok] at h
    obtain ⟨_, _, ⟨_, _, _, _, _, hd, _, _, hi, _⟩, _, _, hr, _⟩ := h
    exact .cons_group (pathsFit_of_writeItems (fits_of_writeDescriptor hd) hi)
      (pathsFit_of_writeItems hp hr)

-- The old folder goes before anything else.

section

open OutputError (attempt)

variable {α : Type} {next : Program α} {a : α}

def clearing (p : Path) (next : Program α) : Program α := do
  if ← (FileStore.pathExists p : StateM FileSystem Bool) then
    attempt p (FileStore.removeFolder p)
  next

theorem clearing_outcome (hr : fs.Cleared p cleared) :
    outcome (clearing p next) fs = outcome next cleared := by
  rw [clearing, bind_outcome, pathExists_outcome]
  cases hr with
  | absent he     => simp [he]
  | removed he hr => simp [he, bind_outcome, attempt_outcome, hr]

theorem clearing_of_kept {e : FileError} (he : fs.pathExists p)
    (hr : fs.removeFolder p = (.error e, fs')) :
    outcome (clearing p next) fs = (.error (.file p e), fs') := by
  rw [clearing, bind_outcome, pathExists_outcome]
  simp [he, bind_outcome, attempt_outcome, hr]

theorem clearing_eq_ok :
    outcome (clearing p next) fs = (.ok a, fs') ↔
      ∃ cleared, fs.Cleared p cleared ∧ outcome next cleared = (.ok a, fs') := by
  constructor
  case mp =>
    intro h
    rcases FileSystem.cleared_or_kept fs p with ⟨cleared, hr⟩ | ⟨_, _, he, hr⟩
    · exact ⟨cleared, hr, clearing_outcome hr ▸ h⟩
    · cases (clearing_of_kept he hr).symm.trans h
  case mpr => exact fun ⟨_, hr, h⟩ => clearing_outcome hr ▸ h

theorem clearing_eq_error :
    outcome (clearing p next) fs = (.error x, fs') ↔
      (∃ e, fs.pathExists p ∧ fs.removeFolder p = (.error e, fs') ∧ x = .file p e) ∨
        ∃ cleared, fs.Cleared p cleared ∧ outcome next cleared = (.error x, fs') := by
  constructor
  case mp =>
    intro h
    rcases FileSystem.cleared_or_kept fs p with ⟨cleared, hr⟩ | ⟨e, _, he, hr⟩
    · exact .inr ⟨cleared, hr, clearing_outcome hr ▸ h⟩
    · cases (clearing_of_kept he hr).symm.trans h
      exact .inl ⟨e, he, hr, rfl⟩
  case mpr =>
    rintro (⟨_, he, hr, rfl⟩ | ⟨_, hr, h⟩)
    · exact clearing_of_kept he hr
    · exact clearing_outcome hr ▸ h

theorem write_eq_clearing :
    (write o Γ sheet p : Program Counts) = clearing p (do
      attempt p (FileStore.createFolders p)
      writeDescriptor p (groupDescriptor o.author)
      writeItems o Γ p "" sheet.body) :=
  rfl

end

theorem write_eq_ok :
    outcome (write o Γ sheet p) fs = (.ok c, fs') ↔
      ∃ cleared created fs₁, fs.Cleared p cleared ∧
        cleared.createFolders p = (.ok (), created) ∧
        outcome (writeDescriptor p (groupDescriptor o.author)) created = (.ok (), fs₁) ∧
        outcome (writeItems o Γ p "" sheet.body) fs₁ = (.ok c, fs') := by
  simp only [write_eq_clearing, clearing_eq_ok, bind_eq_ok, attempt_eq_ok,
    FileSystem.createFolders_eq]
  constructor
  case mp =>
    rintro ⟨cleared, hr, _, created, hc, _, fs₁, hd, hi⟩
    exact ⟨cleared, created, fs₁, hr, hc, hd, hi⟩
  case mpr =>
    rintro ⟨cleared, created, fs₁, hr, hc, hd, hi⟩
    exact ⟨cleared, hr, (), created, hc, (), fs₁, hd, hi⟩

-- What is left to do once the folder has been made.
theorem write_outcome (hr : fs.Cleared p cleared) (hc : cleared.createFolders p = (.ok (), created)) :
    outcome (write o Γ sheet p) fs =
      outcome (do
        writeDescriptor p (groupDescriptor o.author)
        writeItems o Γ p "" sheet.body) created := by
  rw [write_eq_clearing, clearing_outcome hr, bind_outcome, attempt_outcome,
    FileSystem.createFolders_eq, hc]

-- In the empty folder that the destination leads to then, all depends on the items.
theorem write_eq_ok_of_created (hr : fs.Cleared p cleared)
    (hc : cleared.createFolders p = (.ok (), created)) (h : created.At p place .empty)
    (hn : Named sheet.body) (hp : PathsFit "" sheet.body p) :
    outcome (write o Γ sheet p) fs = (.ok c, fs') ↔
      ∃ t, Fills o Γ "" sheet.body (described (groupContent o)) t ∧
        fs' = created.putFolder place t ∧ c = Counts.ofItems sheet.body := by
  have hd : (created.putFolder place (described (groupContent o))).At p place
      (described (groupContent o)) := h.putFolder .empty
  have hi : outcome (writeItems o Γ p "" sheet.body) _ = (.ok c, fs') ↔ _ :=
    FillsFolder.of_named (by simp) hn hp _ _ _ _ hd
  have hg fs₁ : outcome (writeDescriptor p (groupDescriptor o.author)) created = (.ok (), fs₁) ↔ _ :=
    writeDescriptor_eq_ok h (hp.group .here)
  simp only [FileSystem.putFolder_putFolder h.folder] at hi
  rw [write_eq_ok, ← hi]
  constructor
  case mp =>
    rintro ⟨_, _, fs₁, hr', hc', hw, hi⟩
    obtain rfl := hr.unique hr'
    cases hc.symm.trans hc'
    exact (hg fs₁).mp hw ▸ hi
  case mpr => exact fun hi => ⟨cleared, created, _, hr, hc, (hg _).mpr rfl, hi⟩

theorem fills_of_write_created (hr : fs.Cleared p cleared)
    (hc : cleared.createFolders p = (.ok (), created)) (h : created.At p place .empty)
    (hn : Named sheet.body) (hw : outcome (write o Γ sheet p) fs = (.ok c, fs')) :
    ∃ t, Fills o Γ "" sheet.body (described (groupContent o)) t ∧ fs' = created.putFolder place t := by
  obtain ⟨_, _, _, _, _, hd, hi⟩ := write_eq_ok.mp hw
  have hp := pathsFit_of_writeItems (fits_of_writeDescriptor hd) hi
  obtain ⟨t, ht, hf, _⟩ := (write_eq_ok_of_created hr hc h hn hp).mp hw
  exact ⟨t, ht, hf⟩

-- A descriptor is one more file in a folder that is there.
theorem at_of_writeDescriptor {descriptor : Data} {u : Unit}
    (h : outcome (writeDescriptor p descriptor) fs = (.ok u, fs')) :
    ∃ place t, fs.At p place t ∧
      fs' = fs.putFolder place (t.insert descriptorName (.file descriptor.toSpacedJson.toUTF8)) ∧
      fs'.At p place (t.insert descriptorName (.file descriptor.toSpacedJson.toUTF8)) := by
  rw [writeDescriptor, attempt_eq_ok, FileSystem.writeBytes_eq_ok] at h
  obtain ⟨place, t, ha, hf, _, rfl⟩ :=
    FileSystem.writeBytes_join_eq_ok plainName_descriptorName.ne_empty h
  exact ⟨place, t, ha, rfl, ha.insert_file hf⟩

-- The folder that has been created is filled, whatever may be in it.
theorem fills_of_write (hn : Named sheet.body) (h : outcome (write o Γ sheet p) fs = (.ok c, fs')) :
    ∃ cleared before place t u, fs.Cleared p cleared ∧
      cleared.createFolders p = (.ok (), before) ∧ before.At p place t ∧
      Fills o Γ "" sheet.body (t.insert descriptorName (.file (groupContent o))) u ∧
      fs' = before.putFolder place u := by
  obtain ⟨cleared, before, fs₁, hr, hc, hd, hi⟩ := write_eq_ok.mp h
  have hp := pathsFit_of_writeItems (fits_of_writeDescriptor hd) hi
  obtain ⟨place, t, ha, rfl, ha'⟩ := at_of_writeDescriptor hd
  obtain ⟨u, hu, rfl, _⟩ := (FillsFolder.of_named (by simp) hn hp _ _ _ _ ha').mp hi
  exact ⟨cleared, before, place, t, u, hr, hc, ha, hu, FileSystem.putFolder_putFolder ha.folder⟩

section

variable {before : FileSystem} {path rest : Place} {t u : Table Node} {k : Option ByteArray}

theorem contentAt_before (h : before.At p place t) :
    before.root.contentAt (place ++ path) = (Node.folder t).contentAt path := by
  have hf : before.root.at? place = some (.folder t) := h.folder
  rw [Node.contentAt_append, hf, Option.bind_some]

theorem contentAt_after (h : before.At p place t) :
    (before.putFolder place u).root.contentAt (place ++ path) = (Node.folder u).contentAt path := by
  rw [FileSystem.putFolder, Node.contentAt_append, Node.at?_put_self h.folder, Option.bind_some]

variable (h : before.At p place t)
variable (hu : Fills o Γ "" items (t.insert descriptorName (.file (groupContent o))) u)

include h hu

-- Below a name that was taken nothing has been written but the descriptor, which is no folder.
theorem holds_of_written
    (hw : WrittenFolder before (before.putFolder place u) place (name :: rest)) :
    Holds o Γ "" items (name :: rest) none := by
  have hf := (contentAt_after h).symm.trans hw.folder
  have hn := (contentAt_before h).symm.trans hw.new
  cases hc : (t.insert descriptorName (.file (groupContent o))).find? name
  case none =>
    exact (hu.contentAt_of_free hc (Table.find?_insert_eq_none.mp hc).left).mp hf
  case some node =>
    rw [hu.contentAt_of_taken hc, Node.contentAt_folder_cons] at hf
    have ⟨child, hf, hk⟩ := hf
    by_cases hd : name = descriptorName
    · subst hd
      cases Table.find?_insert_self.symm.trans hf
      cases (Node.contentAt_file.mp hk).right
    · rw [Table.find?_insert_of_ne hd] at hf
      cases hn.symm.trans <| Node.contentAt_folder_cons.mpr ⟨child, hf, hk⟩

-- Every folder of the layout lies below a name that was free, which is not that of the descriptor.
theorem written_of_holds (hh : Holds o Γ "" items (name :: rest) none) :
    WrittenFolder before (before.putFolder place u) place (name :: rest) where
  folder := by
    have hc := hu.free_of_holds hh
    rw [contentAt_after h]
    exact (hu.contentAt_of_free hc (Table.find?_insert_eq_none.mp hc).left).mpr hh
  new := by
    have ⟨_, hn⟩ := Table.find?_insert_eq_none.mp <| hu.free_of_holds hh
    rw [contentAt_before h]
    simp [Node.contentAt, Node.at?_folder_cons, hn]

-- The folders that have been written are the ones of the layout.
theorem written_iff :
    WrittenFolder before (before.putFolder place u) place path ↔
      path ≠ [] ∧ Holds o Γ "" items path none := by
  cases path
  case nil =>
    refine ⟨fun hw => ?_, fun hw => absurd rfl hw.left⟩
    cases (contentAt_before h).symm.trans hw.new
  case cons name rest =>
    constructor
    case mp  => exact fun hw => ⟨by simp, holds_of_written h hu hw⟩
    case mpr => exact fun ⟨_, hh⟩ => written_of_holds h hu hh

-- The folder of a declaration holds the descriptor of its colors.
theorem contentAt_colorDescriptor {scope : List Item} {colors : Resolved}
    (hs : Scope items path scope) (hd : .declaration d ∈ scope)
    (hx : Γ.resolve d.value = .ok colors) :
    (before.putFolder place u).root.contentAt
        (place ++ (path ++ [colorFolderName (qualified "" path d), descriptorName])) =
      some (some (colorContent o colors)) := by
  have ⟨name, rest, hp⟩ : ∃ name rest, path ++ [colorFolderName (qualified "" path d)] = name :: rest :=
    List.exists_cons_of_ne_nil <| by simp
  have hh : Holds o Γ "" items (name :: rest) none := hp ▸ .color hs hd
  have hc := hu.free_of_holds hh
  have hf : path ++ [colorFolderName (qualified "" path d), descriptorName] =
      name :: (rest ++ [descriptorName]) := by
    rw [← List.cons_append, ← hp]
    simp
  rw [contentAt_after h, hf]
  refine (hu.contentAt_of_free hc (Table.find?_insert_eq_none.mp hc).left).mpr ?_
  exact hf ▸ .colorDescriptor hs hd hx

end

end Catalog

end Palette
