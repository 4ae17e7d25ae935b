import Palette.Proofs.FileSystem.Creation

-- What is left where a folder was removed, and how it comes back when it is created again.

namespace Palette

namespace FileSystem

variable {fs fs' : FileSystem} {p : Path} {place parent : Place} {name : String}
variable {entries : Table Node}

-- An entry that has been removed is not found again.
theorem walk_of_removed (he : fs.locateEntry p = .ok (parent, entries, some name))
    (hn : isName name) :
    (⟨fs.root.remove (parent ++ [name])⟩ : FileSystem).walk [] p.segments ≠ .ok place := by
  have ⟨_, hw, hf, hl⟩ := locateEntry_eq_ok.mp he
  have ⟨blanks, _, hs, _⟩ := p.splitLast_segments
  have hg : (Node.folder (entries.erase name)).Grows (.folder entries) := by
    refine .folder fun other child hc => ⟨child, ?_, .refl⟩
    by_cases hn : other = name
    · cases Table.find?_erase_self.symm.trans <| hn ▸ hc
    · exact (Table.find?_erase_of_ne hn).symm.trans hc
  rw [← hl] at hs
  apply walk_of_free hs hn
  intro there hb
  rw [Node.remove_concat hf] at hb ⊢
  cases hw.symm.trans <| walk_grows (.of_put hf hg) hb
  exact (at?_concat <| Node.at?_put_self hf).trans Table.find?_erase_self

-- The folder without its members.
def emptied (fs : FileSystem) (place : Place) : FileSystem :=
  ⟨fs.root.put place (.folder .empty)⟩

-- All that a removal can do. Its folder is emptied first, after which the path may have lost its
-- entry, as for a path that goes through the folder and comes back.
inductive Removes (fs : FileSystem) (p : Path) : FileSystem → Prop
  | lost {place members} :
    fs.locate p = .ok place → fs.root.at? place = some (.folder members) →
    (fs.emptied place).locateEntry p = .error .notFound →
    Removes fs p (fs.emptied place)
  | entry {place members parent entries name} :
    fs.locate p = .ok place → fs.root.at? place = some (.folder members) → isName name →
    (fs.emptied place).locateEntry p = .ok (parent, entries, some name) →
    Removes fs p ⟨(fs.emptied place).root.remove (parent ++ [name])⟩

namespace Removes

theorem of_removeFolder (h : fs.removeFolder p = (.ok (), fs')) : fs.Removes p fs' := by
  simp only [removeFolder] at h
  split at h
  case h_1 => cases h
  case h_2 place hl =>
    split at h
    case h_2 => cases h
    case h_1 members hf =>
      split at h
      case h_2 | h_3 => cases h
      case h_1 he =>
        cases h
        exact .lost hl hf he
      case h_4 parent entries name he =>
        obtain ⟨_, _, _, hn⟩ := locateEntry_eq_ok.mp he
        obtain ⟨_, _, _, hb⟩ := p.splitLast_segments
        split at h
        case isTrue => cases h
        case isFalse dot =>
          split at h
          case isTrue => cases h
          case isFalse dots =>
            cases h
            exact .entry hl hf (by simp [isName, Path.staysPut, dot, dots, hb name hn.symm]) he

theorem locate_ne_ok (h : fs.Removes p fs') : fs'.locate p ≠ .ok place := by
  intro hl
  have ⟨hc, hw⟩ := locate_eq_ok.mp hl
  cases h with
  | lost _ _ he      => exact locateEntry_ne_notFound (checkPath_eq_ok.mp hc).right.left hw he
  | entry _ _ hn he => exact walk_of_removed he hn hw

end Removes

-- What is left once an old folder at the path is gone, if there was one.
inductive Cleared (fs : FileSystem) (p : Path) : FileSystem → Prop
  | absent  : fs.pathExists p = false → Cleared fs p fs
  | removed : fs.pathExists p → fs.removeFolder p = (.ok (), after) → Cleared fs p after

theorem cleared_or_kept (fs : FileSystem) (p : Path) :
    (∃ cleared, fs.Cleared p cleared) ∨
      ∃ e after, fs.pathExists p ∧ fs.removeFolder p = (.error e, after) := by
  cases he : fs.pathExists p
  case false => exact .inl ⟨fs, .absent he⟩
  case true =>
    rcases hr : fs.removeFolder p with ⟨e | _, after⟩
    · exact .inr ⟨e, after, rfl, rfl⟩
    · exact .inl ⟨after, .removed he hr⟩

namespace Cleared

theorem locate_ne_ok (h : fs.Cleared p fs') : fs'.locate p ≠ .ok place := by
  cases h with
  | removed _ hr => exact (Removes.of_removeFolder hr).locate_ne_ok
  | absent hp =>
    intro hl
    rw [pathExists, hl] at hp
    cases hp

theorem unique {fs₁ fs₂ : FileSystem} (h₁ : fs.Cleared p fs₁) (h₂ : fs.Cleared p fs₂) : fs₁ = fs₂ := by
  cases h₁ <;> cases h₂ <;> simp_all

-- The folder that was created last can be created again, whatever has been put into it.
theorem again {fs₁ : FileSystem} {parent : Place} {t : Table Node}
    (h : fs₁.Creates p parent name entries) :
    ((fs₁.created parent name).putFolder (parent ++ [name]) t).Cleared p fs₁ := by
  refine .removed ?_ h.removeFolder_eq
  rw [pathExists, h.locate_eq]
  rfl

-- Creating a path that leads nowhere leaves an empty folder there.
theorem creates {fs₁ : FileSystem} (h : fs.Cleared p fs₁) (hr : fs₁.Retreats p)
    (he : p.isEmpty = false) (hc : fs₁.createFolders p = (.ok (), fs')) :
    ∃ (fs₂ : FileSystem) (parent : Place) (name : String) (entries : Table Node),
      fs₂.Creates p parent name entries ∧ fs' = fs₂.created parent name := by
  rcases createFolders_eq_ok hr hc with ⟨_, he' | hf⟩ | ⟨_, _, _, _, _, hc', rfl⟩
  · cases he.symm.trans he'
  · have ⟨place, hl⟩ := locate_of_isFolder hf
    exact absurd hl h.locate_ne_ok
  · exact ⟨_, _, _, _, hc', rfl⟩

end Cleared

-- The folder at the path has been made anew, and that is all.
structure Opened (fs : FileSystem) (p : Path) (before : FileSystem) (place : Place) : Prop where
  created : ∃ cleared, fs.Cleared p cleared ∧ cleared.createFolders p = (.ok (), before)
  leads   : before.walk [] p.segments = .ok place

-- The path leads nowhere or to a folder that can be removed, and a folder can be created there then.
structure Replaceable (fs : FileSystem) (p : Path) : Prop where
  written : p.isEmpty = false
  created : ∃ cleared created, fs.Cleared p cleared ∧ cleared.Retreats p ∧
    cleared.createFolders p = (.ok (), created)

end FileSystem

end Palette
