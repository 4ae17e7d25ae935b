import Palette.Proofs.FileSystem.Footprint

-- What is read at a path, and what is once something has been written there.

namespace Palette

namespace Node

variable {n : Node} {place : Place} {entries : Table Node}

-- The folder above a folder is one, too. The root stands for its own.
theorem at?_dropLast (h : n.at? place = some (.folder entries)) :
    ∃ above : Table Node, n.at? place.dropLast = some (.folder above) := by
  cases List.eq_nil_or_concat place with
  | inl hp => exact ⟨entries, hp ▸ h⟩
  | inr hp =>
    have ⟨front, name, hp⟩ := hp
    rw [hp, List.concat_eq_append, at?_append, Option.bind_eq_some_iff] at h
    have ⟨_, ha, hn⟩ := h
    have ⟨above, _, he, _⟩ := at?_cons_eq_some.mp hn
    exact ⟨above, by rw [hp, List.concat_eq_append, List.dropLast_concat, ha, he]⟩

end Node

namespace FileSystem

variable {fs fs' : FileSystem} {p : Path} {parent place : Place} {name : String} {n : Node}
variable {entries : Table Node} {content content' : ByteArray}

theorem readBytes_eq_ok :
    fs.readBytes p = .ok content ↔
      ∃ place, fs.locate p = .ok place ∧ fs.at? place = some (.file content) := by
  simp only [readBytes, bind, Except.bind]
  cases fs.locate p with
  | error => simp
  | ok place =>
    simp only [Except.ok.injEq, exists_eq_left']
    split <;> simp_all [pure, Except.pure]

namespace Enters

section

variable (h : fs.Enters p parent name entries)

include h

theorem folder : fs.at? parent = some (.folder entries) :=
  have ⟨_, _, hf, _⟩ := locateEntry_eq_ok.mp h.entry
  hf

theorem segments : p.segments = p.splitLast.1 ++ [name] := by
  have ⟨_, _, _, hl⟩ := locateEntry_eq_ok.mp h.entry
  have ⟨blanks, hb, hs, _⟩ := p.splitLast_segments
  rw [← hl, Option.toList_some] at hs
  cases List.eq_nil_or_concat blanks with
  | inl he => simpa [he] using hs
  | inr he =>
    have ⟨front, blank, he⟩ := he
    rw [List.concat_eq_append] at he
    have hn := h.last
    simp [Path.hasTrailingSlash, hs, he, hb blank, ← List.append_assoc, -List.cons_append] at hn

theorem locate (hm : entries.find? name = some n) : fs.locate p = .ok (parent ++ [name]) := by
  have ⟨hc, hw, hf, _⟩ := locateEntry_eq_ok.mp h.entry
  refine locate_eq_ok.mpr ⟨hc, ?_⟩
  rw [h.segments]
  refine walk_append_eq_ok.mpr ⟨parent, hw, walk_cons_eq_ok.mpr ⟨⟨_, hf⟩, .inr <| .inr ?_⟩⟩
  exact ⟨h.proper, h.short, ⟨n, (at?_concat hf).trans hm⟩, rfl⟩

theorem readBytes (hm : entries.find? name = some (.file content)) :
    fs.readBytes p = .ok content := by
  have hf : fs.at? (parent ++ [name]) = some (.file content) := (at?_concat h.folder).trans hm
  simp [FileSystem.readBytes, h.locate hm, hf, bind, Except.bind, pure, Except.pure]

theorem writeBytes (hu : ∀ old, entries.find? name ≠ some (.folder old)) :
    fs.writeBytes p content = .ok (fs.putFolder parent (entries.insert name (.file content))) := by
  have hp : fs.root.put (parent ++ [name]) (.file content) = _ := Node.put_concat h.folder
  simp [FileSystem.writeBytes, h.entry, h.proper, h.last, Nat.not_lt.mpr h.short, hp, putFolder,
    bind, Except.bind, pure, Except.pure]

-- With a new file, or another one in place of a file, the path still ends in the same entry.
theorem putFile (hu : ∀ old, entries.find? name ≠ some (.folder old)) :
    (fs.putFolder parent (entries.insert name (.file content))).Enters p parent name
      (entries.insert name (.file content)) where
  entry := by
    have ⟨hc, hw, _, hl⟩ := locateEntry_eq_ok.mp h.entry
    have hg : Node.Grows (.folder entries) (.folder (entries.insert name (.file content))) := by
      refine .insert fun old ho => ?_
      cases old with
      | file     => exact .file
      | folder t => exact absurd ho <| hu t
    exact locateEntry_eq_ok.mpr ⟨hc, walk_grows (.put h.folder hg) hw, Node.at?_put_self h.folder, hl⟩
  proper := h.proper
  short  := h.short
  last   := h.last

end

-- Whatever else a path ends in leads to a folder.
theorem of_readBytes (h : fs.readBytes p = .ok content) :
    ∃ parent name entries, fs.Enters p parent name entries ∧
      entries.find? name = some (.file content) := by
  have ⟨place, hl, hf⟩ := readBytes_eq_ok.mp h
  have ⟨hc, hw⟩ := locate_eq_ok.mp hl
  cases List.eq_nil_or_concat p.segments with
  | inl hs =>
    have ⟨_, he, _⟩ := checkPath_eq_ok.mp hc
    cases he.symm.trans <| Path.isEmpty_of_segments hs
  | inr hs =>
    have ⟨before, name, hs⟩ := hs
    rw [List.concat_eq_append] at hs
    have ⟨parent, hb, hw⟩ := walk_append_eq_ok.mp <| hs ▸ hw
    have ⟨⟨entries, hp⟩, hn⟩ := walk_cons_eq_ok.mp hw
    match hn with
    | .inl ⟨_, hw⟩ =>
      cases hw
      cases hp.symm.trans hf
    | .inr (.inl ⟨_, hw⟩) =>
      cases hw
      have ⟨_, ha⟩ := Node.at?_dropLast hp
      cases ha.symm.trans hf
    | .inr (.inr ⟨proper, short, _, hw⟩) =>
      cases hw
      have hne : name ≠ "" := fun he => by
        rw [he] at proper
        cases proper
      have hsl := Path.splitLast_concat hs hne
      refine ⟨parent, name, entries, ⟨?entry, proper, short, ?last⟩, (at?_concat hp).symm.trans hf⟩
      case entry => exact locateEntry_eq_ok.mpr ⟨hc, by rw [hsl]; exact hb, hp, by rw [hsl]⟩
      case last  => exact Path.not_hasTrailingSlash_concat hs hne

end Enters

-- What has been written is read.
theorem readBytes_of_writeBytes (h : fs.writeBytes p content = .ok fs') :
    fs'.readBytes p = .ok content := by
  have ⟨_, _, _, he, hu, hp⟩ := entry_of_writeBytes h
  exact hp ▸ (he.putFile hu).readBytes Table.find?_insert_self

-- What can be read can be written.
theorem writeBytes_of_readBytes (h : fs.readBytes p = .ok content) (content' : ByteArray) :
    ∃ fs', fs.writeBytes p content' = .ok fs' := by
  have ⟨_, _, _, he, hf⟩ := Enters.of_readBytes h
  exact ⟨_, he.writeBytes fun _ ho => nomatch hf.symm.trans ho⟩

-- What has been read stands at the place that its path leads to.
theorem contentAt_of_readBytes (h : fs.readBytes p = .ok content) :
    fs.root.contentAt (Path.target [] p.segments) = some (some content) := by
  have ⟨place, hl, hf⟩ := readBytes_eq_ok.mp h
  have hf : fs.root.at? place = some (.file content) := hf
  rw [← eq_target_of_walk (locate_eq_ok.mp hl).right, Node.contentAt, hf]
  rfl

-- To write what a file holds already changes nothing.
theorem contentAt_of_writeBytes_self (hr : fs.readBytes p = .ok content)
    (h : fs.writeBytes p content = .ok fs') (q : Place) :
    fs'.root.contentAt q = fs.root.contentAt q := by
  by_cases hq : q = Path.target [] p.segments
  case pos =>
    rw [hq, contentAt_of_readBytes hr, contentAt_of_readBytes <| readBytes_of_writeBytes h]
  case neg => exact changesOnly_of_writeBytes h q hq

end FileSystem

end Palette
