import Palette.Proofs.Catalog.Exactness
import Palette.Proofs.FileSystem.Frame

-- What is left behind by a catalog that could not be written: what belongs to the items before the
-- one that was in the way, and at most an empty folder for that one.

namespace Palette

open Catalog (Named colorFolderName qualified qualified_nil qualified_cons)

namespace Item

def folderName (qualifier : String) (path : List String) : Item → String
  | .declaration d => colorFolderName (qualified qualifier path d)
  | .group name _  => name

-- The items in front of an item, which is found at a path: all that come before it in the order of
-- the sheet. Of the groups around it these are the members that come before it.
inductive Reached : List Item → List Item → List String → Item → Prop
  | here   : Reached (i :: rest) [] [] i
  | inside : Reached members done path i →
    Reached (.group name members :: rest) [.group name done] (name :: path) i
  | later  : Reached rest done path i → Reached (first :: rest) (first :: done) path i

variable {i : Item} {items done : List Item} {path : List String} {name qualifier : String}

theorem folderName_cons :
    i.folderName qualifier (name :: path) = i.folderName (qualifier ++ name) path := by
  cases i
  case declaration => rw [folderName, folderName, qualified_cons]
  case group       => rfl

namespace Reached

-- The item is one of its group, whose members in front of it have been reached before.

theorem scope (h : Reached items done path i) : ∃ scope, Scope items path scope ∧ i ∈ scope := by
  induction h
  case here => exact ⟨_, .here, List.mem_cons_self⟩
  case inside ih =>
    have ⟨scope, hs, hi⟩ := ih
    exact ⟨scope, .inner List.mem_cons_self hs, hi⟩
  case later first _ ih =>
    have ⟨_, hs, hi⟩ := ih
    have ⟨scope, hs, hl⟩ := hs.cons (i := first)
    exact ⟨scope, hs, hl.mem hi⟩

theorem scope_done (h : Reached items done path i) : ∃ scope, Scope done path scope := by
  induction h
  case here => exact ⟨_, .here⟩
  case inside ih =>
    have ⟨scope, hs⟩ := ih
    exact ⟨scope, .inner List.mem_cons_self hs⟩
  case later first _ ih =>
    have ⟨_, hs⟩ := ih
    have ⟨scope, hs, _⟩ := hs.cons (i := first)
    exact ⟨scope, hs⟩

theorem named (h : Reached items done path i) (hn : Named items) : Named done := by
  induction h
  case here      => exact .nil
  case inside ih =>
    exact .consGroup .nil (ih <| hn.of_mem List.mem_cons_self) (hn.group .here List.mem_cons_self)
  case later first _ ih =>
    have hr := ih hn.tail
    cases first
    case declaration => exact hr.consDeclaration <| hn.declaration .here List.mem_cons_self
    case group       =>
      exact hr.consGroup (hn.of_mem List.mem_cons_self) (hn.group .here List.mem_cons_self)

end Reached

end Item

namespace Catalog

open Item (Reached Scope)
open Program

-- Why an item cannot be written, and what becomes of the files then. If its folder can be created,
-- what it stands for is not known or the path of its descriptor is too long.
inductive Stuck (Γ : Context) (fs : FileSystem) (folder : Path) (i : Item) :
    OutputError → FileSystem → Prop
  | refused : fs.createFolder folder = .error e → Stuck Γ fs folder i (.file folder e) fs
  | unresolved : fs.createFolder folder = .ok fs' → i = .declaration d → Γ.resolve d.value = .error e →
    Stuck Γ fs folder i (.resolve e) fs'
  | undescribed : fs.createFolder folder = .ok fs' →
    (∀ d, i = .declaration d → ∃ colors, Γ.resolve d.value = .ok colors) →
    ¬(folder.join descriptorName).Fits →
    Stuck Γ fs folder i (.file (folder.join descriptorName) .nameTooLong) fs'

variable {o : Options} {Γ : Context} {sheet : Sheet} {fs fs' before : FileSystem} {p folder : Path}
variable {i : Item} {x : OutputError} {qualifier name : String} {path : List String}
variable {d : Declaration} {items inner : List Item} {place : Place} {c : Counts}

-- Nothing but the length of its path keeps a descriptor from being written into an empty folder.
theorem writeDescriptor_eq_error {descriptor : Data} (h : fs.At p place .empty)
    (hw : outcome (writeDescriptor p descriptor) fs = (.error x, fs')) :
    ¬(p.join descriptorName).Fits ∧ x = .file (p.join descriptorName) .nameTooLong ∧ fs' = fs := by
  by_cases hl : (p.join descriptorName).Fits
  case pos => cases ((writeDescriptor_eq_ok h hl).mpr rfl).symm.trans hw
  case neg =>
    have hd : ∀ content, fs.writeBytes (p.join descriptorName) content = .error .nameTooLong :=
      fun _ => h.leads.writeBytes_join_of_long plainName_descriptorName <| Nat.le_of_not_lt hl
    simp only [writeDescriptor, attempt_eq_error, FileSystem.writeBytes_eq_error, hd,
      Except.error.injEq] at hw
    obtain ⟨_, ⟨rfl, hf⟩, hx⟩ := hw
    exact ⟨hl, hx, hf⟩

theorem undescribed_of_writeDescriptor {descriptor : Data} {fs₁ : FileSystem}
    (hc : fs.createFolder folder = .ok fs₁)
    (hi : ∀ d, i = .declaration d → ∃ colors, Γ.resolve d.value = .ok colors)
    (hw : outcome (writeDescriptor folder descriptor) fs₁ = (.error x, fs')) :
    Stuck Γ fs folder i x fs' := by
  obtain ⟨_, _, _, hc', rfl⟩ := FileSystem.creates_of_createFolder hc
  obtain ⟨hl, rfl, rfl⟩ := writeDescriptor_eq_error hc'.opens hw
  exact .undescribed hc hi hl

theorem stuck_of_writeDeclaration
    (h : outcome (writeItem o Γ p qualifier (.declaration d)) fs = (.error x, fs')) :
    Stuck Γ fs (p.join (colorFolderName (qualifier ++ d.name))) (.declaration d) x fs' := by
  simp only [writeItem, bind_eq_error, attempt_eq_error, attempt_eq_ok, FileSystem.createFolder_eq_ok,
    FileSystem.createFolder_eq_error, resolving_eq_error, resolving_eq_ok] at h
  rcases h with ⟨e, ⟨hc, rfl⟩, rfl⟩ | ⟨_, _, hc, ⟨e, he, rfl, rfl⟩ | ⟨colors, _, ⟨hx, rfl⟩, hw | ⟨_, _, _, hr⟩⟩⟩
  · exact .refused hc
  · exact .unresolved hc rfl he
  · refine undescribed_of_writeDescriptor hc ?_ hw
    rintro _ ⟨⟩
    exact ⟨colors, hx⟩
  · cases hr

-- How runs are put together.

theorem writeItems_nil : outcome (writeItems o Γ p qualifier []) fs = (.ok {}, fs) :=
  rfl

theorem writeGroup_of_members {fs₁ fs₂ : FileSystem} (hc : fs.createFolder (p.join name) = .ok fs₁)
    (hw : outcome (writeDescriptor (p.join name) (groupDescriptor o.author)) fs₁ = (.ok (), fs₂))
    (hi : outcome (writeItems o Γ (p.join name) (qualifier ++ name) inner) fs₂ = (.ok c, fs')) :
    outcome (writeItem o Γ p qualifier (.group name inner)) fs = (.ok (⟨1, 0⟩ + c), fs') := by
  simp only [writeItem, bind_eq_ok, attempt_eq_ok, FileSystem.createFolder_eq_ok, pure_outcome]
  exact ⟨(), fs₁, hc, (), fs₂, hw, c, fs', hi, rfl⟩

theorem writeItems_cons {fs₁ : FileSystem} {c₁ : Counts}
    (hi : outcome (writeItem o Γ p qualifier i) fs = (.ok c₁, fs₁))
    (hr : outcome (writeItems o Γ p qualifier items) fs₁ = (.ok c, fs')) :
    outcome (writeItems o Γ p qualifier (i :: items)) fs = (.ok (c₁ + c), fs') := by
  simp only [writeItems, bind_eq_ok, pure_outcome]
  exact ⟨c₁, fs₁, hi, c, fs', hr, rfl⟩

-- The run comes to an item that is in the way, and all items in front of it can be written.

mutual

theorem stuck_of_writeItem {i : Item} {p : Path} {qualifier : String} {fs fs' : FileSystem}
    (h : outcome (writeItem o Γ p qualifier i) fs = (.error x, fs'))
    (rest : List Item) :
    ∃ done path i' c before, Reached (i :: rest) done path i' ∧
      outcome (writeItems o Γ p qualifier done) fs = (.ok c, before) ∧
      Stuck Γ before ((p.descend path).join (i'.folderName qualifier path)) i' x fs' := by
  cases i
  case declaration d =>
    refine ⟨[], [], _, _, fs, .here, writeItems_nil, ?_⟩
    rw [Item.folderName, qualified_nil]
    exact stuck_of_writeDeclaration h
  case group name inner =>
    simp only [writeItem, bind_eq_error, attempt_eq_error, attempt_eq_ok,
      FileSystem.createFolder_eq_error, FileSystem.createFolder_eq_ok] at h
    rcases h with ⟨e, ⟨hc, rfl⟩, rfl⟩ | ⟨_, fs₁, hc, hw | ⟨_, fs₂, hw, hi | ⟨_, _, _, hr⟩⟩⟩
    · exact ⟨[], [], _, _, _, .here, writeItems_nil, .refused hc⟩
    · have hs : Stuck Γ fs (p.join name) (.group name inner) x fs' :=
        undescribed_of_writeDescriptor hc nofun hw
      exact ⟨[], [], _, _, _, .here, writeItems_nil, hs⟩
    · obtain ⟨done, path, i', c, before, hd, hw', hs⟩ := stuck_of_writeItems hi
      have hg := writeItems_cons (writeGroup_of_members hc hw hw') writeItems_nil
      rw [← Item.folderName_cons] at hs
      exact ⟨_, _, i', _, before, .inside hd, hg, hs⟩
    · cases hr

theorem stuck_of_writeItems {items : List Item} {p : Path} {qualifier : String}
    {fs fs' : FileSystem}
    (h : outcome (writeItems o Γ p qualifier items) fs = (.error x, fs')) :
    ∃ done path i c before, Reached items done path i ∧
      outcome (writeItems o Γ p qualifier done) fs = (.ok c, before) ∧
      Stuck Γ before ((p.descend path).join (i.folderName qualifier path)) i x fs' := by
  cases items
  case nil => cases h
  case cons first rest =>
    simp only [writeItems, bind_eq_error] at h
    rcases h with hi | ⟨c₁, fs₁, hi, hr | ⟨_, _, _, hr⟩⟩
    · exact stuck_of_writeItem hi rest
    · obtain ⟨done, path, i, c, before, hd, hw, hs⟩ := stuck_of_writeItems hr
      exact ⟨_, path, i, _, before, .later hd, writeItems_cons hi hw, hs⟩
    · cases hr

end

theorem body_map_item {items : List Item} : (Sheet.mk (items.map .item)).body = items := by
  induction items
  case nil         => rfl
  case cons _ _ ih => exact congrArg _ ih

-- What is written of a sheet up to some item is what a shorter sheet stands for.
theorem write_of_items {cleared created fs₁ : FileSystem} {u : Unit} (hr : fs.Cleared p cleared)
    (hc : cleared.createFolders p = (.ok u, created))
    (hd : outcome (writeDescriptor p (groupDescriptor o.author)) created = (.ok u, fs₁))
    (hi : outcome (writeItems o Γ p "" items) fs₁ = (.ok c, fs')) :
    outcome (write o Γ ⟨items.map .item⟩ p) fs = (.ok c, fs') :=
  write_eq_ok.mpr ⟨cleared, created, fs₁, hr, hc, hd, body_map_item.symm ▸ hi⟩

-- The paths of groups lead to the folders that have been filled with them.
theorem Fills.at_descend {scope : List Item} {t t' : Table Node} (h : Fills o Γ qualifier items t t')
    (ha : fs.At p place t') (hn : Named items) (hs : Scope items path scope) :
    ∃ u, fs.At (p.descend path) (place ++ path) u := by
  induction hs generalizing qualifier p place t t'
  case here => exact ⟨t', by simpa [Path.descend] using ha⟩
  case inner name _ _ _ hg _ ih =>
    have ⟨hl, u, hu⟩ := h.group_of_mem hg
    obtain ⟨hn', hc⟩ := hn.group .here hg
    have he := ha.enter (h.find?_group hg hu) (plainName_of_alphanumeric hn' hc) hl
    have ⟨u', ha'⟩ := ih hu he (hn.of_mem hg)
    exact ⟨u', by simpa [Path.descend] using ha'⟩

theorem Named.plainName_folderName {scope : List Item} (h : Named items) (hs : Scope items path scope)
    (hi : i ∈ scope) : PlainName (i.folderName "" path) := by
  cases i
  case declaration =>
    exact plainName_colorFolderName <| alphanumeric_qualified (by simp) (alphanumeric_of_scope h hs)
      (h.declaration hs hi).right
  case group =>
    have ⟨hn, hc⟩ := h.group hs hi
    exact plainName_of_alphanumeric hn hc

-- A folder that is created by its name in a folder is an entry of that one.
theorem creates_of_at {t : Table Node} (h : fs.At p place t) (hn : PlainName name)
    (hc : fs.createFolder (p.join name) = .ok fs') :
    fs.Creates (p.join name) place name t ∧ fs' = fs.created place name := by
  obtain ⟨parent, last, entries, hc', rfl⟩ := FileSystem.creates_of_createFolder hc
  have hl := (FileSystem.checkPath_eq_ok.mp (FileSystem.locateEntry_eq_ok.mp hc'.entry).left).right.right
  have he := h.leads.locateEntry_join h.folder hn hl
  cases hc'.entry.symm.trans he
  exact ⟨hc', rfl⟩

theorem Stuck.createFolder (h : Stuck Γ fs folder i x fs') :
    (∃ e, fs.createFolder folder = .error e) ∧ fs' = fs ∨ fs.createFolder folder = .ok fs' := by
  cases h with
  | refused hc         => exact .inl ⟨⟨_, hc⟩, rfl⟩
  | unresolved hc _ _  => exact .inr hc
  | undescribed hc _ _ => exact .inr hc

-- What is left behind is what the items in front stand for, and maybe one more folder, which is empty.
section

variable {done : List Item} {t : Table Node} {rest : Place} {k : Option ByteArray}
variable (ha : before.At p place t) (ht : Fills o Γ "" done (described (groupContent o)) t)
variable (hn : Named items) (hr : Reached items done path i)
variable (hs : Stuck Γ before ((p.descend path).join (i.folderName "" path)) i x fs')

include ha ht

theorem contentAt_done :
    before.root.contentAt (place ++ rest) = some k ↔ Holds o Γ "" done rest k := by
  rw [contentAt_before ha]
  exact ht.holds

include hn hr

theorem creates_of_reached
    (hc : before.createFolder ((p.descend path).join (i.folderName "" path)) = .ok fs') :
    ∃ u, before.Creates ((p.descend path).join (i.folderName "" path)) (place ++ path)
      (i.folderName "" path) u ∧ fs' = before.created (place ++ path) (i.folderName "" path) := by
  have ⟨_, hi, hm⟩ := hr.scope
  have ⟨_, hd⟩ := hr.scope_done
  have ⟨u, hu⟩ := ht.at_descend ha (hr.named hn) hd
  exact ⟨u, creates_of_at hu (hn.plainName_folderName hi hm) hc⟩

include hs

theorem contentAt_stuck :
    fs'.root.contentAt (place ++ rest) = some k ↔
      Holds o Γ "" done rest k ∨
      before.createFolder ((p.descend path).join (i.folderName "" path)) = .ok fs' ∧
        rest = path ++ [i.folderName "" path] ∧ k = none := by
  rw [← contentAt_done ha ht]
  rcases hs.createFolder with ⟨⟨_, hc⟩, rfl⟩ | hc
  · simp [hc]
  · obtain ⟨_, hc', rfl⟩ := creates_of_reached ha ht hn hr hc
    rw [hc'.contentAt, List.append_assoc, List.append_cancel_left_eq]
    simp [hc]

theorem spares_of_stuck (hf : fs.Spares place before) : fs.Spares place fs' := by
  rcases hs.createFolder with ⟨_, rfl⟩ | hc
  · exact hf
  · obtain ⟨_, hc', rfl⟩ := creates_of_reached ha ht hn hr hc
    refine hf.inside fun q hq => Option.ext fun k => ?_
    have : q ≠ place ++ path ++ [i.folderName "" path] := by
      rintro rfl
      exact hq ⟨path ++ [i.folderName "" path], by simp⟩
    simp only [hc'.contentAt, this, false_and, or_false]

theorem locate_of_stuck (hl : before.locate p = .ok place) : fs'.locate p = .ok place := by
  rcases hs.createFolder with ⟨_, rfl⟩ | hc
  · exact hl
  · obtain ⟨_, hc', rfl⟩ := creates_of_reached ha ht hn hr hc
    have ⟨hp, hw⟩ := FileSystem.locate_eq_ok.mp hl
    exact FileSystem.locate_eq_ok.mpr ⟨hp, FileSystem.walk_grows hc'.grows hw⟩

end

theorem write_leaves {input : String} (hs : Sheet.parse input = .ok sheet) (hf : fs.Replaceable p)
    (o : Options) {r : Except OutputError Counts}
    (hw : outcome (write o (.ofSheet sheet) sheet p) fs = (r, fs')) :
    ∃ place, fs'.locate p = .ok place ∧ fs.Spares place fs' ∧ ∀ x, r = .error x →
      (¬(p.join descriptorName).Fits ∧ x = .file (p.join descriptorName) .nameTooLong ∧
        ∀ rest k, fs'.root.contentAt (place ++ rest) = some k ↔ rest = [] ∧ k = none) ∨
      ∃ done path i c before, Reached sheet.body done path i ∧
        outcome (write o (.ofSheet sheet) ⟨done.map .item⟩ p) fs = (.ok c, before) ∧
        Stuck (.ofSheet sheet) before ((p.descend path).join (i.folderName "" path)) i x fs' ∧
        ∀ rest k, fs'.root.contentAt (place ++ rest) = some k ↔
          Holds o (.ofSheet sheet) "" done rest k ∨
          before.createFolder ((p.descend path).join (i.folderName "" path)) = .ok fs' ∧
            rest = path ++ [i.folderName "" path] ∧ k = none := by
  have hn := Sheet.named_of_parse hs
  obtain ⟨cleared, created, hr, hb, hc⟩ := hf.created
  obtain ⟨fs₁, parent, name, entries, h, rfl⟩ := hr.creates hb hf.written hc
  have hsp : fs.Spares (parent ++ [name]) (fs₁.created parent name) :=
    FileSystem.target_of_locateEntry h.entry h.proper ▸ .of_created hr hb hc
  have inside t : fs.Spares (parent ++ [name])
      ((fs₁.created parent name).putFolder (parent ++ [name]) t) :=
    hsp.inside fun _ hq => Node.contentAt_put h.at_created hq
  cases r
  case ok =>
    obtain ⟨t, _, rfl⟩ := fills_of_write_created hr hc h.opens hn hw
    exact ⟨_, h.locate_eq, inside t, nofun⟩
  case error x =>
    rw [write_outcome hr hc, bind_eq_error] at hw
    rcases hw with hd | ⟨u, fs₂, hd, hi⟩
    case inl =>
      obtain ⟨hl, rfl, rfl⟩ := writeDescriptor_eq_error h.opens hd
      refine ⟨_, h.opens.putFolder_self ▸ h.locate_eq, hsp, ?_⟩
      rintro _ ⟨⟩
      refine .inl ⟨hl, rfl, fun rest k => ?_⟩
      rw [contentAt_before h.opens]
      cases rest <;> simp [Node.contentAt, Node.content?, Node.at?_folder_cons, eq_comm]
    case inr =>
      obtain ⟨done, path, i, c, before, hreach, hok, hstuck⟩ := stuck_of_writeItems hi
      have hw' := write_of_items hr hc hd hok
      have hn' : Named (Sheet.mk (done.map .item)).body := body_map_item ▸ hreach.named hn
      obtain ⟨t, ht, rfl⟩ := fills_of_write_created hr hc h.opens hn' hw'
      rw [body_map_item] at ht
      have ha := h.opens.putFolder (@Node.Grows.empty t)
      refine ⟨_, locate_of_stuck ha ht hn hreach hstuck h.locate_eq,
        spares_of_stuck ha ht hn hreach hstuck (inside t), ?_⟩
      rintro _ ⟨⟩
      exact .inr ⟨done, path, i, c, _, hreach, hw', hstuck,
        fun _ _ => contentAt_stuck ha ht hn hreach hstuck⟩

theorem write_fails (hn : Named sheet.body) (ha : ¬Admissible Γ "" sheet.body) :
    ∃ x fs', outcome (write o Γ sheet p) fs = (.error x, fs') := by
  rcases hw : outcome (write o Γ sheet p) fs with ⟨x | _, fs'⟩
  case error => exact ⟨x, fs', rfl⟩
  case ok =>
    obtain ⟨_, _, _, _, _, _, _, _, hu, _⟩ := fills_of_write hn hw
    exact absurd hu.admissible ha

-- A sheet with two colors of one name.
def repeated : Sheet :=
  let d : Declaration := ⟨"c", .plain (.color ⟨0, 0, 0, .one⟩)⟩
  ⟨[.item (.declaration d), .item (.declaration d)]⟩

theorem parse_repeated : Sheet.parse "c:#000000\nc:#000000" = .ok repeated := by
  have hd rest := declaration_of_hexColor 'c' [] rfl <| hexColor_black rest
  exact Sheet.parse_of_topItems (.cons (.item <| .declaration <| hd _) (.line .nil (.inl rfl) .lf .nil) <|
    .cons (.item <| .declaration <| hd []) (.last .nil (.inl rfl) rfl) .nil) (by decide)

theorem write_leaves_repeated :
    ∃ x fs' place done path i,
      outcome (write {} (.ofSheet repeated) repeated (.ofText "x")) .empty = (.error x, fs') ∧
      fs'.locate (.ofText "x") = .ok place ∧ FileSystem.empty.Spares place fs' ∧
      Reached repeated.body done path i ∧
      ∀ rest k, Holds {} (.ofSheet repeated) "" done rest k →
        fs'.root.contentAt (place ++ rest) = some k := by
  have ha : ¬Admissible (.ofSheet repeated) "" repeated.body :=
    fun h => absurd (h.declarations .here) (by decide)
  have hn := Sheet.named_of_parse parse_repeated
  have ⟨x, fs', hw⟩ := @write_fails {} _ _ .empty (.ofText "x") hn ha
  have ⟨place, hl, hf, hx⟩ := write_leaves parse_repeated replaceable_x {} hw
  rcases hx x rfl with ⟨hl, _⟩ | ⟨done, path, i, _, _, hr, _, _, hc⟩
  · exact absurd (by decide) hl
  · exact ⟨x, fs', place, done, path, i, hw, hl, hf, hr, fun rest k hh => (hc rest k).mpr <| .inl hh⟩

-- A descriptor may be out of reach where its folder is not.
theorem write_of_long {cleared created : FileSystem} (hr : fs.Cleared p cleared)
    (hc : cleared.createFolders p = (.ok (), created)) (h : created.At p place .empty)
    (hl : ¬(p.join descriptorName).Fits) :
    outcome (write o Γ sheet p) fs =
      (.error (.file (p.join descriptorName) .nameTooLong), created) := by
  have hw : created.writeBytes (p.join descriptorName) (groupContent o) = .error .nameTooLong :=
    h.leads.writeBytes_join_of_long plainName_descriptorName <| Nat.le_of_not_lt hl
  rw [write_outcome hr hc, bind_eq_error, writeDescriptor, attempt_eq_error]
  exact .inl ⟨_, FileSystem.writeBytes_eq_error.mpr ⟨hw, rfl⟩, rfl⟩

-- A path with dots in front of its name.

def dotted (n : Nat) : Path :=
  ⟨List.replicate n "." ++ ["x"]⟩

section

variable {n : Nat}

theorem utf8ByteSize_dotted : (dotted n).text.utf8ByteSize = 2 * n + 1 := by
  induction n
  case zero => rfl
  case succ n ih =>
    have hs : List.replicate n "." ++ ["x"] ≠ [] := by simp
    have ht : (dotted (n + 1)).text = "." ++ "/" ++ (dotted n).text := by
      rw [dotted, Path.text, List.replicate_succ, List.cons_append,
        String.intercalate_cons_of_ne_nil hs]
      rfl
    have hd : ("." ++ "/").utf8ByteSize = 2 := by decide
    rw [ht, String.utf8ByteSize_append, hd, ih]
    omega

theorem fits_join_dotted {name : String} :
    ((dotted n).join name).Fits ↔ 2 * n + 2 + name.utf8ByteSize < FileSystem.pathBytesLimit := by
  have hj : ((dotted n).join name).text = (dotted n).text ++ "/" ++ name :=
    Path.text_join rfl (by decide) name
  have hs : "/".utf8ByteSize = 1 := by decide
  rw [Path.Fits, hj, String.utf8ByteSize_append, String.utf8ByteSize_append, utf8ByteSize_dotted, hs]

theorem creates_dotted (h : 2 * n + 1 < FileSystem.pathBytesLimit) :
    FileSystem.empty.Creates (dotted n) [] "x" .empty where
  proper := by decide
  short  := by decide
  free   := rfl
  entry  := by
    have hc : FileSystem.checkPath (dotted n) = .ok () := by
      refine FileSystem.checkPath_eq_ok.mpr ⟨fun hm => ?_, by simp [Path.isEmpty, dotted], ?_⟩
      · rcases Path.mem_text hm with hm | ⟨s, hs, hm⟩
        · cases hm
        · rcases List.mem_append.mp hs with hs | hs
          · exact absurd (List.eq_of_mem_replicate hs ▸ hm) (by decide)
          · exact absurd (List.mem_singleton.mp hs ▸ hm) (by decide)
      · rwa [utf8ByteSize_dotted]
    have hl : (dotted n).splitLast = _ := Path.splitLast_concat rfl (by decide)
    refine FileSystem.locateEntry_eq_ok.mpr ⟨hc, ?_, rfl, by rw [hl]⟩
    rw [hl]
    exact FileSystem.walk_stays rfl fun s hs => (List.eq_of_mem_replicate hs) ▸ rfl

end

-- What is in the way need not be an item, and what is left need not come from one.
theorem leftover_without_item :
    (Sheet.parse "" = .ok ⟨[]⟩ ∧
      FileSystem.empty.pathExists (dotted 2042) = false ∧
      ∃ created, FileSystem.empty.createFolders (dotted 2042) = (.ok (), created) ∧
        outcome (write {} (.ofSheet ⟨[]⟩) ⟨[]⟩ (dotted 2042)) .empty =
          (.error (.file ((dotted 2042).join descriptorName) .nameTooLong), created)) ∧
    Sheet.parse "y\x7bc:#000000\x7d" = .ok sample ∧
    FileSystem.empty.pathExists tangledPath = false ∧
    FileSystem.empty.createFolders tangledPath = (.ok (), tangled) ∧
    ∃ y fs', Reached sample.body [] [] y ∧
      outcome (write {} (.ofSheet sample) sample tangledPath) .empty =
        (.error (.file (tangledPath.join "y") .alreadyExists), fs') ∧
      fs'.root.contentAt ["x", "y"] = some none ∧
      ∀ k, ¬Holds {} (.ofSheet sample) "" [] ["y"] k := by
  have hc := creates_dotted (n := 2042) (by decide)
  have hl : ¬((dotted 2042).join descriptorName).Fits := fun h =>
    absurd (fits_join_dotted.mp h) (by decide)
  refine ⟨⟨Sheet.parse_of_topItems .nil (by decide), hc.pathExists_eq, _, hc.createFolders_eq,
    write_of_long (.absent hc.pathExists_eq) hc.createFolders_eq hc.opens hl⟩,
    parse_sample, rfl, createFolders_tangledPath, _, _, .here, write_of_tangledPath, rfl, ?_⟩
  intro k hh
  rcases HoldsBelow.of_holds hh with ⟨hd, _⟩ | hb
  · exact absurd hd (by decide)
  · generalize "y" = name at hb
    cases hb with
    | color hd   => cases hd
    | group hg _ => cases hg

end Catalog

end Palette
