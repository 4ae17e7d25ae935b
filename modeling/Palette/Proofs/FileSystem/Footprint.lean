import Mathlib.Order.Defs.Unbundled
import Palette.Proofs.FileSystem.Frame
import Palette.Proofs.FileSystem.Programs

-- Where operations on files change anything, whether they succeed or fail and whatever files there
-- are: at the places that their paths lead to. Removal also reaches what is below, and creation of
-- folders goes by all places that parts of its path lead to.

namespace Palette

namespace Path

variable {p : Path} {here : Place} {name : String} {segments rest : List String}

theorem target_join (hn : FileSystem.isName name) :
    target here (p.join name).segments = target here p.segments ++ [name] := by
  have ⟨before, hj, hs⟩ := p.join_segments name
  have hb : target here p.segments = target here before := by
    rcases hs with hs | hs
    · rw [hs]
    · rw [hs, target_append, target_stays (by simp [staysPut])]
  rw [hj, target_append, target_name hn, hb]

-- A path without `..` only goes on.
theorem target_prefix (h : ".." ∉ rest) : here <+: target here rest := by
  induction rest generalizing here
  case nil => exact List.prefix_rfl
  case cons s rest ih =>
    have ⟨hs, hr⟩ := not_or.mp <| mt List.mem_cons.mpr h
    rw [target, if_neg (Ne.symm hs)]
    split
    · exact ih hr
    · exact (List.prefix_append ..).trans (ih hr)

end Path

namespace FileSystem

variable {fs fs₁ fs' : FileSystem} {p : Path} {q : Place} {name : String} {content : ByteArray}
variable {touched touched' : Place → Prop}

def ChangesOnly (touched : Place → Prop) (fs fs' : FileSystem) : Prop :=
  ∀ q, ¬touched q → fs'.root.contentAt q = fs.root.contentAt q

instance : IsPreorder FileSystem (ChangesOnly touched) where
  refl _ _ _            := rfl
  trans _ _ _ h h' q hq := (h' q hq).trans (h q hq)

theorem ChangesOnly.mono (h : ChangesOnly touched fs fs') (ht : ∀ q, touched q → touched' q) :
    ChangesOnly touched' fs fs' :=
  fun q hq => h q <| mt (ht q) hq

theorem Adds.changesOnly (h : Adds touched fs fs') : ChangesOnly touched fs fs' :=
  fun q hq => (h q).resolve_right fun ha => hq ha.left

-- Creation

theorem adds_of_createFolder (h : fs.createFolder p = .ok fs') :
    Adds (· = Path.target [] p.segments) fs fs' := by
  obtain ⟨_, _, _, he, hn, _, hf, rfl⟩ := entry_of_createFolder h
  have ⟨_, _, hp, _⟩ := locateEntry_eq_ok.mp he
  exact target_of_locateEntry he hn ▸ .of_created hp hf

-- Where a path leads, and where its beginnings do.
def OnTheWay (p : Path) (q : Place) : Prop :=
  ∃ before, before <+: p.segments ∧ q = Path.target [] before

theorem adds_of_createFolders {r : Except FileError Unit} (h : fs.createFolders p = (r, fs')) :
    Adds (OnTheWay p) fs fs' := by
  have last {p : Path} {q : Place} (hq : q = Path.target [] p.segments) : OnTheWay p q :=
    ⟨p.segments, List.prefix_rfl, hq⟩
  have parent {p : Path} {q : Place} (hq : OnTheWay p.parent q) : OnTheWay p q :=
    have ⟨before, hb, he⟩ := hq
    ⟨before, hb.trans p.parent_prefix, he⟩
  fun_induction createFolders fs p generalizing r fs'
  case case1 | case7 | case8 | case9 => cases h; exact .refl
  case case2 hc => cases h; exact (adds_of_createFolder hc).mono fun _ => last
  case case3 hp ih | case5 hp _ _ _ ih | case6 hp _ _ _ ih =>
    cases h
    exact (ih hp).mono fun _ => parent
  case case4 hp _ hc ih =>
    cases h
    exact ((ih hp).mono fun _ => parent).trans <| (adds_of_createFolder hc).mono fun _ => last

-- Nothing has changed but at the place that a path leads to and below it, save that folders stand
-- where some were missing on the way.
def Builds (p : Path) (fs fs' : FileSystem) : Prop :=
  ∀ q, ¬Path.target [] p.segments <+: q → fs'.root.contentAt q = fs.root.contentAt q ∨
    OnTheWay p q ∧ fs.root.contentAt q = none ∧ fs'.root.contentAt q = some none

instance : IsPreorder FileSystem (Builds p) where
  refl _ _ _            := .inl rfl
  trans _ _ _ h h' q hq := added_trans (h q hq) (h' q hq)

namespace Builds

theorem of_changesOnly (h : ChangesOnly (Path.target [] p.segments <+: ·) fs fs') :
    Builds p fs fs' :=
  fun q hq => .inl <| h q hq

theorem of_adds (h : Adds (OnTheWay p) fs fs') : Builds p fs fs' :=
  fun q _ => h q

-- Without `..` the way to a place is made of the folders above it.
theorem spares (h : Builds p fs fs') (hd : ".." ∉ p.segments) :
    fs.Spares (Path.target [] p.segments) fs' := by
  refine fun q hq => (h q hq).imp_right <| And.imp_left ?_
  rintro ⟨before, ⟨rest, hr⟩, rfl⟩
  rw [← hr, List.mem_append, not_or] at hd
  rw [← hr, Path.target_append]
  exact Path.target_prefix hd.right

end Builds

-- Writing

-- There is nothing below a file.
theorem changesOnly_of_writeBytes (h : fs.writeBytes p content = .ok fs') :
    ChangesOnly (· = Path.target [] p.segments) fs fs' := by
  obtain ⟨parent, name, entries, he, hu, rfl⟩ := entry_of_writeBytes h
  have ⟨_, _, hp, _⟩ := locateEntry_eq_ok.mp he.entry
  replace hp : fs.root.at? parent = some (.folder entries) := hp
  intro q hq
  rw [target_of_locateEntry he.entry he.proper] at hq
  by_cases hb : parent ++ [name] <+: q
  case neg => exact Node.contentAt_entry hp (fun _ hn => Table.find?_insert_of_ne hn) hb
  case pos =>
    obtain ⟨rest, rfl⟩ := hb
    cases rest
    case nil => exact absurd (List.append_nil _) hq
    case cons s rest =>
      rw [List.append_assoc, Node.contentAt_append, Node.contentAt_append, hp, putFolder,
        Node.at?_put_self hp, Option.bind_some, Option.bind_some, List.singleton_append,
        Node.contentAt, Node.contentAt, Node.at?_folder_cons, Node.at?_folder_cons,
        Table.find?_insert_self]
      cases ho : entries.find? name
      case none => rfl
      case some old =>
        cases old
        case file     => rfl
        case folder t => exact absurd ho <| hu t

-- Removal

-- If a removal fails, then before anything has changed or else once the folder has been emptied.
theorem emptied_of_removeFolder {e : FileError} (h : fs.removeFolder p = (.error e, fs')) :
    fs' = fs ∨ ∃ place members, fs.locate p = .ok place ∧
      fs.root.at? place = some (.folder members) ∧ fs' = fs.emptied place := by
  simp only [removeFolder] at h
  split at h
  case h_1 => cases h; exact .inl rfl
  case h_2 place hl =>
    split at h
    case h_2 => cases h; exact .inl rfl
    case h_1 members hf =>
      refine .inr ⟨place, members, hl, hf, ?_⟩
      split at h
      case h_1             => cases h
      case h_2 | h_3       => cases h; rfl
      case h_4 =>
        split at h
        case isTrue => cases h; rfl
        case isFalse =>
          split at h
          case isTrue  => cases h; rfl
          case isFalse => cases h

theorem changesOnly_of_removeFolder {r : Except FileError Unit}
    (h : fs.removeFolder p = (r, fs')) : ChangesOnly (Path.target [] p.segments <+: ·) fs fs' := by
  intro q hq
  cases r
  case ok => exact (Removes.of_removeFolder h).contentAt hq
  case error =>
    rcases emptied_of_removeFolder h with rfl | ⟨place, _, hl, hf, rfl⟩
    · rfl
    · rw [← eq_target_of_walk (locate_eq_ok.mp hl).right] at hq
      exact Node.contentAt_put hf hq

end FileSystem

namespace Program

open FileSystem (Adds ChangesOnly)
open OutputError (attempt resolving)

variable {α β : Type} {R R' : FileSystem → FileSystem → Prop} {x : Program α} {p there : Path}

-- Whatever becomes of a program, the files before and after it are related.
def Leaves (R : FileSystem → FileSystem → Prop) (x : Program α) : Prop :=
  ∀ fs, R fs (outcome x fs).2

namespace Leaves

theorem mono (h : Leaves R x) (hR : ∀ fs fs', R fs fs' → R' fs fs') : Leaves R' x :=
  fun fs => hR fs _ (h fs)

theorem attempt {operation : StateM FileSystem (Except FileError α)}
    (h : ∀ fs r fs', perform operation fs = (r, fs') → R fs fs') : Leaves R (attempt p operation) := by
  intro fs
  rw [attempt_outcome]
  rcases hp : perform operation fs with ⟨_ | _, fs'⟩ <;> exact h fs _ fs' hp

section

variable [IsPreorder FileSystem R]

theorem pure (a : α) : Leaves R (pure a) :=
  fun fs => refl_of R fs

theorem resolving (r : Except ResolveError α) : Leaves R (resolving r) := by
  intro fs
  rw [resolving_outcome]
  cases r <;> exact refl_of R fs

theorem bind {next : α → Program β} (hx : Leaves R x) (hn : ∀ a, Leaves R (next a)) :
    Leaves R (x >>= next) := by
  intro fs
  have hx := hx fs
  rw [bind_outcome]
  rcases h : outcome x fs with ⟨_ | a, fs₁⟩ <;> rw [h] at hx
  case error => exact hx
  case ok    => exact trans_of R hx <| hn a fs₁

theorem pathExists {next : Bool → Program β} (hn : ∀ a, Leaves R (next a)) :
    Leaves R ((FileStore.pathExists p : StateM FileSystem Bool) >>= fun a => next a : Program β) :=
  bind (fun fs => refl_of R fs) hn

theorem readBytes : Leaves R (OutputError.attempt there (FileStore.readBytes p)) :=
  attempt fun fs _ _ h => (Prod.mk.inj h).right ▸ refl_of R fs

end

theorem createFolder :
    Leaves (Adds (· = Path.target [] p.segments))
      (OutputError.attempt there (FileStore.createFolder p)) := by
  refine attempt fun fs r fs' h => ?_
  cases r
  case error => exact (FileSystem.createFolder_eq_error.mp h).right ▸ .refl
  case ok    => exact FileSystem.adds_of_createFolder <| FileSystem.createFolder_eq_ok.mp h

theorem createFolders :
    Leaves (Adds (FileSystem.OnTheWay p))
      (OutputError.attempt there (FileStore.createFolders p)) :=
  attempt fun _ _ _ => FileSystem.adds_of_createFolders

theorem removeFolder :
    Leaves (ChangesOnly (Path.target [] p.segments <+: ·))
      (OutputError.attempt there (FileStore.removeFolder p)) :=
  attempt fun _ _ _ => FileSystem.changesOnly_of_removeFolder

theorem writeBytes {content : ByteArray} :
    Leaves (ChangesOnly (· = Path.target [] p.segments))
      (OutputError.attempt there (FileStore.writeBytes p content)) := by
  refine attempt fun fs r fs' h => ?_
  cases r
  case error => exact (FileSystem.writeBytes_eq_error.mp h).right ▸ refl_of _ _
  case ok    => exact FileSystem.changesOnly_of_writeBytes <| FileSystem.writeBytes_eq_ok.mp h

end Leaves

end Program

end Palette
