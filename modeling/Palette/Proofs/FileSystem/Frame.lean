import Palette.Proofs.Catalog.Filling
import Palette.Proofs.FileSystem.Destination

-- What stays as it was when folders are removed and created: all that does not stand where the path
-- leads to, but for the folders above it that were missing.

namespace Palette

namespace Node

variable {n m v : Node} {place q : Place} {name : String} {t t' : Table Node}

theorem contentAt_put (h : n.at? place = some m) (hq : ¬place <+: q) :
    (n.put place v).contentAt q = n.contentAt q := by
  induction place generalizing n q
  case nil => exact absurd List.nil_prefix hq
  case cons name place ih =>
    obtain ⟨entries, child, rfl, hf, hc⟩ := at?_cons_eq_some.mp h
    rw [put_folder_cons hf]
    cases q
    case nil => rfl
    case cons other q =>
      simp only [contentAt, at?_folder_cons]
      by_cases hn : other = name
      case neg => rw [Table.find?_insert_of_ne hn]
      case pos =>
        subst hn
        rw [Table.find?_insert_self, hf]
        exact ih hc fun hp => hq <| List.cons_prefix_cons.mpr ⟨rfl, hp⟩

-- Nothing but one entry of a table changes.
theorem contentAt_entry (h : n.at? place = some (.folder t))
    (ht : ∀ other, other ≠ name → t'.find? other = t.find? other) (hq : ¬place ++ [name] <+: q) :
    (n.put place (.folder t')).contentAt q = n.contentAt q := by
  by_cases hp : place <+: q
  case neg => exact contentAt_put h hp
  case pos =>
    obtain ⟨rest, rfl⟩ := hp
    rw [contentAt_append, contentAt_append, at?_put_self h, h, Option.bind_some, Option.bind_some]
    cases rest
    case nil => rfl
    case cons other rest =>
      have hn : other ≠ name := by
        rintro rfl
        exact hq ⟨rest, by simp⟩
      rw [contentAt, contentAt, at?_folder_cons, at?_folder_cons, ht other hn]

end Node

namespace Path

variable {here : Place} {segments rest : List String}

-- Where names lead to if they lead anywhere, whatever files there are.
def target (here : Place) : List String → Place
  | [] => here
  | s :: rest =>
    if staysPut s then target here rest
    else if s = ".." then target here.dropLast rest
    else target (here ++ [s]) rest

theorem target_append : target here (segments ++ rest) = target (target here segments) rest := by
  induction segments generalizing here
  case nil => rfl
  case cons s segments ih =>
    simp only [List.cons_append, target]
    repeat' split
    all_goals exact ih

theorem target_stays (h : ∀ s ∈ segments, staysPut s) : target here segments = here := by
  induction segments
  case nil => rfl
  case cons s segments ih =>
    have ⟨hs, hr⟩ := List.forall_mem_cons.mp h
    rw [target, if_pos hs, ih hr]

theorem target_name {name : String} (h : FileSystem.isName name) :
    target here [name] = here ++ [name] := by
  have ⟨hs, hd⟩ : staysPut name = false ∧ name ≠ ".." := by simpa [FileSystem.isName] using h
  simp [target, hs, hd]

end Path

namespace FileSystem

variable {fs fs' cleared : FileSystem} {p : Path} {here place parent q : Place} {name : String}
variable {segments : List String} {entries : Table Node} {k : Option ByteArray}

theorem eq_target_of_walk (h : fs.walk here segments = .ok place) :
    place = Path.target here segments := by
  induction segments generalizing here
  case nil => cases h; rfl
  case cons s rest ih =>
    rcases (walk_cons_eq_ok.mp h).right with ⟨hs, hw⟩ | ⟨rfl, hw⟩ | ⟨hn, _, _, hw⟩
    · rw [Path.target, if_pos hs, ih hw]
    · exact ih hw
    · rw [← List.singleton_append, Path.target_append, Path.target_name hn, ih hw]

-- A path that has an entry leads to that entry.
theorem target_of_locateEntry (h : fs.locateEntry p = .ok (parent, entries, some name))
    (hn : isName name) : Path.target [] p.segments = parent ++ [name] := by
  have ⟨_, hw, _, hl⟩ := locateEntry_eq_ok.mp h
  have ⟨blanks, hb, hs, _⟩ := p.splitLast_segments
  have hb : ∀ s ∈ blanks, Path.staysPut s := fun s hm => by simp [hb s hm, Path.staysPut]
  rw [hs, ← hl, Option.toList_some, Path.target_append, Path.target_append, ← eq_target_of_walk hw,
    Path.target_name hn, Path.target_stays hb]

-- Removal

theorem Removes.contentAt (h : fs.Removes p fs') (hq : ¬Path.target [] p.segments <+: q) :
    fs'.root.contentAt q = fs.root.contentAt q := by
  cases h with
  | lost hl hf _ =>
    rw [← eq_target_of_walk (locate_eq_ok.mp hl).right] at hq
    exact Node.contentAt_put hf hq
  | entry hl hf hn he =>
    have ⟨_, _, hp, _⟩ := locateEntry_eq_ok.mp he
    have hq' := target_of_locateEntry he hn ▸ hq
    rw [← eq_target_of_walk (locate_eq_ok.mp hl).right] at hq
    rw [Node.remove_concat hp]
    refine (Node.contentAt_entry hp (fun _ hn => Table.find?_erase_of_ne hn) hq').trans ?_
    exact Node.contentAt_put hf hq

theorem Cleared.contentAt (h : fs.Cleared p cleared) (hq : ¬Path.target [] p.segments <+: q) :
    cleared.root.contentAt q = fs.root.contentAt q := by
  cases h with
  | absent _     => rfl
  | removed _ hr => exact (Removes.of_removeFolder hr).contentAt hq

-- Creation

theorem contentAt_created (hp : fs.root.at? parent = some (.folder entries))
    (hf : entries.find? name = none) :
    (fs.created parent name).root.contentAt q = some k ↔
      fs.root.contentAt q = some k ∨ q = parent ++ [name] ∧ k = none := by
  have he : (fs.created parent name).root =
      fs.root.put parent (.folder (entries.insert name (.folder .empty))) :=
    Node.put_concat hp
  by_cases hq : parent ++ [name] <+: q
  case neg =>
    have hn : q ≠ parent ++ [name] := fun he => hq <| he ▸ List.prefix_rfl
    rw [he, Node.contentAt_entry hp (fun _ hn => Table.find?_insert_of_ne hn) hq]
    simp [hn]
  case pos =>
    obtain ⟨rest, rfl⟩ := hq
    have hf : fs.root.at? (parent ++ [name]) = none := (at?_concat hp).trans hf
    have hp' : (fs.created parent name).at? parent =
        some (.folder (entries.insert name (.folder .empty))) := by
      rw [at?, he]
      exact Node.at?_put_self hp
    have hc : (fs.created parent name).root.at? (parent ++ [name]) = some (.folder .empty) :=
      (at?_concat hp').trans Table.find?_insert_self
    rw [Node.contentAt_append, Node.contentAt_append, hf, hc]
    cases rest <;> simp [Node.contentAt, Node.content?, Node.at?_folder_cons, eq_comm]

theorem Creates.contentAt (h : fs.Creates p parent name entries) :
    (fs.created parent name).root.contentAt q = some k ↔
      fs.root.contentAt q = some k ∨ q = parent ++ [name] ∧ k = none :=
  contentAt_created h.at_parent h.free

-- At a single place: what was there stays, and a folder that is new there stays one.
theorem added_trans {touched : Prop} {k k₁ k' : Option (Option ByteArray)}
    (h : k₁ = k ∨ touched ∧ k = none ∧ k₁ = some none)
    (h' : k' = k₁ ∨ touched ∧ k₁ = none ∧ k' = some none) :
    k' = k ∨ touched ∧ k = none ∧ k' = some none := by
  rcases h with rfl | ⟨ht, rfl, rfl⟩
  · exact h'
  · rcases h' with rfl | ⟨_, hn, _⟩
    · exact .inr ⟨ht, rfl, rfl⟩
    · cases hn

-- New folders stand at some places, and nothing else has changed.
def Adds (touched : Place → Prop) (fs fs' : FileSystem) : Prop :=
  ∀ q, fs'.root.contentAt q = fs.root.contentAt q ∨
    touched q ∧ fs.root.contentAt q = none ∧ fs'.root.contentAt q = some none

namespace Adds

variable {fs₁ : FileSystem} {touched touched' : Place → Prop}

theorem refl : Adds touched fs fs :=
  fun _ => .inl rfl

theorem trans (h : Adds touched fs fs₁) (h' : Adds touched fs₁ fs') : Adds touched fs fs' :=
  fun q => added_trans (h q) (h' q)

theorem mono (h : Adds touched fs fs') (ht : ∀ q, touched q → touched' q) : Adds touched' fs fs' :=
  fun q => (h q).imp_right <| And.imp_left (ht q)

theorem of_created (hp : fs.root.at? parent = some (.folder entries))
    (hf : entries.find? name = none) :
    Adds (· = parent ++ [name]) fs (fs.created parent name) := by
  intro q
  have hc {k} : _ ↔ _ := contentAt_created (q := q) (k := k) hp hf
  by_cases hq : q = parent ++ [name]
  case pos =>
    have hn : fs.root.at? q = none := hq ▸ (at?_concat hp).trans hf
    exact .inr ⟨hq, by rw [Node.contentAt, hn]; rfl, hc.mpr <| .inr ⟨hq, rfl⟩⟩
  case neg => exact .inl <| Option.ext fun k => by rw [hc]; simp [hq]

end Adds

-- New folders stand on the way to a place, and nothing else has changed.
def Paves (fs : FileSystem) (place : Place) (fs' : FileSystem) : Prop :=
  ∀ q, fs'.root.contentAt q = fs.root.contentAt q ∨
    q <+: place ∧ fs.root.contentAt q = none ∧ fs'.root.contentAt q = some none

namespace Paves

variable {fs₁ : FileSystem} {place' : Place}

theorem refl : fs.Paves place fs :=
  Adds.refl

theorem trans (h : fs.Paves place' fs₁) (h' : fs₁.Paves place fs') (hp : place' <+: place) :
    fs.Paves place fs' :=
  (Adds.mono h fun _ hq => hq.trans hp).trans h'

theorem of_creates (h : fs.Creates p parent name entries) :
    fs.Paves (parent ++ [name]) (fs.created parent name) :=
  (Adds.of_created h.at_parent h.free).mono fun _ hq => hq ▸ List.prefix_rfl

end Paves

-- A path goes on from its parent by a name, unless the parent is there already.
theorem target_parent (hr : fs.Retreats p) (hp : ∀ place, fs.walk [] p.parent.segments ≠ .ok place) :
    Path.target [] p.parent.segments <+: Path.target [] p.segments := by
  rcases p.parent_segments with he | ⟨dots, s, blanks, hd, hs, hb, hj⟩
  · rw [he]
    exact List.nil_prefix
  · have hn : s ≠ ".." := by
      rintro rfl
      have ⟨_, hb⟩ := hr (p.parent.segments ++ dots) <| by simp [hj]
      have ⟨_, hb, _⟩ := walk_append_eq_ok.mp hb
      have ⟨_, hb, _⟩ := walk_append_eq_ok.mp hb
      exact hp _ hb
    rw [hj, Path.target_append, Path.target_append, Path.target_append, Path.target_stays hd,
      Path.target_name (by simp [isName, hs, hn]), Path.target_stays hb]
    exact List.prefix_append ..

-- The folder that was created last is the one that the path leads to, and the others are above it.
theorem paves_of_createFolders (hr : fs.Retreats p)
    (h : fs.createFolders p = (.ok (), fs')) : fs.Paves (Path.target [] p.segments) fs' := by
  fun_induction createFolders fs p generalizing fs'
  case case1 | case8                 => cases h; exact .refl
  case case3 | case6 | case7 | case9 => cases h
  case case2 hc =>
    cases h
    obtain ⟨_, _, _, hc', rfl⟩ := creates_of_createFolder hc
    exact target_of_locateEntry hc'.entry hc'.proper ▸ .of_creates hc'
  case case4 hn _ _ hp _ hc ih =>
    cases h
    have hf := ih hr.of_parent hp
    rcases createFolders_eq_ok hr.of_parent hp with ⟨rfl, _⟩ | ⟨hq, _, _, _, _, _, rfl⟩
    · cases hn.symm.trans hc
    · obtain ⟨_, _, _, hc', rfl⟩ := creates_of_createFolder hc
      refine hf.trans ?_ <| target_parent hr hq
      exact target_of_locateEntry hc'.entry hc'.proper ▸ .of_creates hc'
  case case5 hp _ _ _ ih =>
    cases h
    have hf := ih hr.of_parent hp
    rcases createFolders_eq_ok hr.of_parent hp with ⟨rfl, _⟩ | ⟨hq, _⟩
    · exact .refl
    · exact hf.trans .refl <| target_parent hr hq

-- Nothing has changed that does not stand at the place, but for missing folders above it.
def Spares (fs : FileSystem) (place : Place) (fs' : FileSystem) : Prop :=
  ∀ q, ¬place <+: q → fs'.root.contentAt q = fs.root.contentAt q ∨
    q <+: place ∧ fs.root.contentAt q = none ∧ fs'.root.contentAt q = some none

namespace Spares

variable {fs₁ : FileSystem} {t u : Table Node}

-- The place is made anew.
theorem of_created (h : fs.Cleared p cleared) (hr : cleared.Retreats p)
    (hc : cleared.createFolders p = (.ok (), fs')) : fs.Spares (Path.target [] p.segments) fs' := by
  intro q hq
  have hf := paves_of_createFolders hr hc q
  rwa [h.contentAt hq] at hf

-- And then things only change in there.
theorem inside (h : fs.Spares place fs₁)
    (h' : ∀ q, ¬place <+: q → fs'.root.contentAt q = fs₁.root.contentAt q) : fs.Spares place fs' := by
  intro q hq
  rw [h' q hq]
  exact h q hq

end Spares

end FileSystem

end Palette
