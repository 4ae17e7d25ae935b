import Palette.Proofs.FileSystem.Operations

-- What stands where a folder has been created, together with the folders above it.

namespace Palette

namespace Path

variable {p : Path}

theorem eq_trimmed_append (test : String → Bool) (segments : List String) :
    ∃ blanks, (∀ s ∈ blanks, test s) ∧
      segments = (segments.reverse.dropWhile test).reverse ++ blanks := by
  refine ⟨(segments.reverse.takeWhile test).reverse, ?blank, ?segments⟩
  case blank =>
    intro s hm
    exact List.all_eq_true.mp List.all_takeWhile s <| List.mem_reverse.mp hm
  case segments =>
    rw [← List.reverse_append, List.takeWhile_append_dropWhile, List.reverse_reverse]

-- What is left of a trimmed list ends in something that fails the test.
theorem trimmed_cases (test : String → Bool) (segments : List String) :
    segments.dropWhile test = [] ∨
      ∃ s rest, segments.dropWhile test = s :: rest ∧ test s = false := by
  cases hd : segments.dropWhile test
  case nil => exact .inl rfl
  case cons s rest =>
    refine .inr ⟨s, rest, rfl, ?_⟩
    have := List.head?_dropWhile_not test segments
    simpa [hd] using this

-- The segments of a path up to its last name, that name, and nothing but slashes behind it.
theorem splitLast_segments (p : Path) :
    ∃ blanks, (∀ s ∈ blanks, s = "") ∧
      p.segments = p.splitLast.1 ++ p.splitLast.2.toList ++ blanks ∧
      ∀ name ∈ p.splitLast.2, name ≠ "" := by
  obtain ⟨blanks, hb, hs⟩ := eq_trimmed_append (· = "") p.segments
  refine ⟨blanks, by simpa using hb, ?_⟩
  rcases trimmed_cases (· = "") p.segments.reverse with hd | ⟨s, rest, hd, hn⟩
  · have hp : p.splitLast = ([], none) := by simp [splitLast, hd]
    rw [hp]
    exact ⟨by simpa [hd] using hs, by simp⟩
  · have hp : p.splitLast = (rest.reverse, some s) := by simp [splitLast, hd]
    rw [hp]
    exact ⟨by simpa [hd] using hs, by simpa using hn⟩

-- The parent of a path is left when the last segment is taken away that leads anywhere.
theorem parent_segments (p : Path) :
    p.parent.segments = [] ∨
      ∃ dots s blanks, (∀ s ∈ dots, staysPut s) ∧ staysPut s = false ∧ (∀ s ∈ blanks, staysPut s) ∧
        p.segments = p.parent.segments ++ dots ++ [s] ++ blanks := by
  obtain ⟨blanks, hb, hs⟩ := eq_trimmed_append staysPut p.segments
  rcases trimmed_cases staysPut p.segments.reverse with hd | ⟨s, rest, hd, hn⟩
  · exact .inl <| by simp [parent, hd]
  · obtain ⟨dots, hd', hr⟩ := eq_trimmed_append staysPut rest.reverse
    refine .inr ⟨dots, s, blanks, hd', hn, hb, ?_⟩
    rw [hd, List.reverse_cons, hr] at hs
    simpa [parent, hd] using hs

theorem parent_prefix (p : Path) : p.parent.segments <+: p.segments := by
  rcases p.parent_segments with hp | ⟨_, _, _, _, _, _, hs⟩
  · simp [hp]
  · rw [hs]
    simp [List.append_assoc]

end Path

namespace FileSystem

variable {fs fs' : FileSystem} {p : Path} {place here parent : Place} {name : String}
variable {entries : Table Node} {segments : List String}

-- Nothing but dots leads from a folder to itself.
theorem walk_stays (hf : fs.at? here = some (.folder entries))
    (hs : ∀ s ∈ segments, Path.staysPut s) : fs.walk here segments = .ok here := by
  induction segments
  case nil => rfl
  case cons s rest ih =>
    have ⟨hs, hr⟩ := List.forall_mem_cons.mp hs
    exact walk_cons_eq_ok.mpr ⟨⟨entries, hf⟩, .inl ⟨hs, ih hr⟩⟩

-- Nothing leads to an entry that is not there.
theorem walk_of_free {before blanks : List String} (hs : p.segments = before ++ [name] ++ blanks)
    (hn : isName name) (hf : ∀ there, fs.walk [] before = .ok there → fs.at? (there ++ [name]) = none) :
    fs.walk [] p.segments ≠ .ok place := by
  rw [hs]
  intro hw
  have ⟨_, hw, _⟩ := walk_append_eq_ok.mp hw
  have ⟨there, hb, hw⟩ := walk_append_eq_ok.mp hw
  rcases (walk_cons_eq_ok.mp hw).right with ⟨hs, _⟩ | ⟨rfl, _⟩ | ⟨_, _, ⟨_, hm⟩, _⟩
  · simp [isName, hs] at hn
  · exact absurd hn <| by decide
  · cases (hf there hb).symm.trans hm

-- A folder is created where its path goes on from a folder with a name that is free there.
structure Creates (fs : FileSystem) (p : Path) (parent : Place) (name : String)
    (entries : Table Node) : Prop where
  entry  : fs.locateEntry p = .ok (parent, entries, some name)
  proper : isName name
  short  : name.utf8ByteSize ≤ maxNameBytes
  free   : entries.find? name = none

def created (fs : FileSystem) (parent : Place) (name : String) : FileSystem :=
  ⟨fs.root.put (parent ++ [name]) (.folder .empty)⟩

theorem entry_of_createFolder (h : fs.createFolder p = .ok fs') :
    ∃ (parent : Place) (name : String) (entries : Table Node),
      fs.locateEntry p = .ok (parent, entries, some name) ∧ isName name ∧
      name.utf8ByteSize ≤ maxNameBytes ∧ entries.find? name = none ∧ fs' = fs.created parent name := by
  simp only [createFolder, bind, Except.bind] at h
  split at h
  case h_1 => cases h
  case h_2 v he =>
    obtain ⟨parent, entries, _ | name⟩ := v
    case none => cases h
    case some =>
      simp only at h
      split at h
      case isTrue => cases h
      case isFalse hn =>
        split at h
        case isTrue => cases h
        case isFalse hl =>
          split at h
          case isTrue => cases h
          case isFalse hf =>
            cases h
            exact ⟨parent, name, entries, he, by simpa using hn, Nat.not_lt.mp hl, by simpa using hf,
              rfl⟩

theorem creates_of_createFolder (h : fs.createFolder p = .ok fs') :
    ∃ parent name entries, fs.Creates p parent name entries ∧ fs' = fs.created parent name := by
  obtain ⟨parent, name, entries, he, hn, hl, hf, rfl⟩ := entry_of_createFolder h
  exact ⟨parent, name, entries, ⟨he, hn, hl, hf⟩, rfl⟩

namespace Creates

variable (h : fs.Creates p parent name entries)

include h

theorem at_parent : fs.at? parent = some (.folder entries) :=
  (locateEntry_eq_ok.mp h.entry).right.right.left

theorem walk_parent : fs.walk [] p.splitLast.1 = .ok parent :=
  (locateEntry_eq_ok.mp h.entry).right.left

theorem path_segments :
    ∃ blanks, (∀ s ∈ blanks, Path.staysPut s) ∧
      p.segments = p.splitLast.1 ++ [name] ++ blanks := by
  have ⟨blanks, hb, hs, _⟩ := p.splitLast_segments
  have hl := (locateEntry_eq_ok.mp h.entry).right.right.right
  exact ⟨blanks, fun s hm => by simp [hb s hm, Path.staysPut], by simpa [← hl] using hs⟩

theorem created_eq :
    (fs.created parent name).root =
      fs.root.put parent (.folder (entries.insert name (.folder .empty))) :=
  Node.put_concat h.at_parent

theorem grows : fs.root.Grows (fs.created parent name).root := by
  rw [h.created_eq]
  exact .put h.at_parent <| .insert <| by simp [h.free]

theorem created_at_parent :
    (fs.created parent name).at? parent =
      some (.folder (entries.insert name (.folder .empty))) := by
  rw [at?, h.created_eq]
  exact Node.at?_put_self h.at_parent

theorem at_created : (fs.created parent name).at? (parent ++ [name]) = some (.folder .empty) :=
  (at?_concat h.created_at_parent).trans Table.find?_insert_self

theorem created_entry : (fs.created parent name).locateEntry p =
    .ok (parent, entries.insert name (.folder .empty), some name) :=
  have ⟨hc, hw, _, hl⟩ := locateEntry_eq_ok.mp h.entry
  locateEntry_eq_ok.mpr ⟨hc, walk_grows h.grows hw, h.created_at_parent, hl⟩

-- The path leads to the new folder, and led nowhere before.

theorem walk_created : (fs.created parent name).walk [] p.segments = .ok (parent ++ [name]) := by
  have ⟨blanks, hb, hs⟩ := h.path_segments
  have hn : (fs.created parent name).walk parent [name] = .ok (parent ++ [name]) :=
    walk_cons_eq_ok.mpr
      ⟨⟨_, h.created_at_parent⟩, .inr <| .inr ⟨h.proper, h.short, ⟨_, h.at_created⟩, rfl⟩⟩
  rw [hs]
  refine walk_append_eq_ok.mpr ⟨_, walk_append_eq_ok.mpr ⟨_, ?_, hn⟩, walk_stays h.at_created hb⟩
  exact walk_grows h.grows h.walk_parent

theorem not_walk (place : Place) : fs.walk [] p.segments ≠ .ok place := by
  have ⟨blanks, _, hs⟩ := h.path_segments
  apply walk_of_free hs h.proper
  intro there hw
  cases h.walk_parent.symm.trans hw
  rw [at?_concat h.at_parent, h.free]

theorem pathExists_eq : fs.pathExists p = false := by
  rw [pathExists]
  cases hl : fs.locate p
  case error    => rfl
  case ok place => exact absurd (locate_eq_ok.mp hl).right <| h.not_walk place

-- The new folder is empty, so that nothing but dots leads on from it.
theorem dots_of_walk {place : Place} {s : String} {rest : List String}
    (hw : (fs.created parent name).walk (parent ++ [name]) (s :: rest) = .ok place)
    (hs : Path.staysPut s = false) : s = ".." := by
  rcases (walk_cons_eq_ok.mp hw).right with ⟨hs', _⟩ | ⟨hd, _⟩ | ⟨_, _, ⟨_, hm⟩, _⟩
  · cases hs.symm.trans hs'
  · exact hd
  · cases (at?_concat h.at_created).symm.trans hm

theorem opens : (fs.created parent name).At p (parent ++ [name]) .empty where
  leads  := ⟨(checkPath_eq_ok.mp (locateEntry_eq_ok.mp h.entry).left).left, h.walk_created⟩
  folder := h.at_created

theorem createFolder_eq : fs.createFolder p = .ok (fs.created parent name) := by
  simp [createFolder, bind, Except.bind, h.entry, h.proper, Nat.not_lt.mpr h.short, h.free,
    created, pure, Except.pure]

theorem createFolders_eq : fs.createFolders p = (.ok (), fs.created parent name) := by
  have hc := (checkPath_eq_ok.mp (locateEntry_eq_ok.mp h.entry).left).right.left
  rw [createFolders, h.createFolder_eq]
  simp [hc]

-- Whatever is put into the new folder, it stays there and goes with it.

theorem locate_eq {t : Table Node} :
    ((fs.created parent name).putFolder (parent ++ [name]) t).locate p = .ok (parent ++ [name]) :=
  locate_eq_ok.mpr ⟨(locateEntry_eq_ok.mp h.entry).left,
    walk_grows (.put h.at_created .empty) h.walk_created⟩

theorem removeFolder_eq {t : Table Node} :
    ((fs.created parent name).putFolder (parent ++ [name]) t).removeFolder p = (.ok (), fs) := by
  have hf : ((fs.created parent name).putFolder (parent ++ [name]) t).at? (parent ++ [name]) =
      some (.folder t) :=
    Node.at?_put_self h.at_created
  have he : ((fs.created parent name).putFolder (parent ++ [name]) t).root.put (parent ++ [name])
      (.folder .empty) = (fs.created parent name).root :=
    congrArg root <| (putFolder_putFolder h.at_created).trans h.opens.putFolder_self
  have hr : (fs.created parent name).root.remove (parent ++ [name]) = fs.root := by
    rw [Node.remove_concat h.created_at_parent, h.created_eq, Node.put_put h.at_parent,
      Table.erase_insert h.free, Node.put_at? h.at_parent]
  have dot : name ≠ "." := fun hn => absurd h.proper <| by simp [hn, isName, Path.staysPut]
  have dots : name ≠ ".." := fun hn => absurd h.proper <| by simp [hn, isName, Path.staysPut]
  simp only [removeFolder, h.locate_eq, hf, he, h.created_entry, dot, dots, if_false, hr]

end Creates

theorem checkPath_ne_notFound (he : p.isEmpty = false) : checkPath p ≠ .error .notFound := by
  rw [checkPath, he]
  repeat' split
  all_goals simp_all

theorem locate_of_isFolder (h : fs.isFolder p) : ∃ place, fs.locate p = .ok place := by
  rw [isFolder] at h
  split at h
  case h_1 place hl => exact ⟨place, hl⟩
  case h_2          => cases h

theorem createFolders_of_parent {fs₁ : FileSystem} (hp : p.segments ≠ []) (he : p.isEmpty = false)
    (hn : fs.createFolder p = .error .notFound) (h : fs.createFolders p.parent = (.ok (), fs₁)) :
    fs.createFolders p =
      match fs₁.createFolder p with
      | .ok fs₂  => (.ok (), fs₂)
      | .error e => if fs₁.isFolder p then (.ok (), fs₁) else (.error e, fs₁) := by
  rw [createFolders]
  simp only [he, hn, h, Bool.false_eq_true, if_false]
  cases fs₁.createFolder p <;> simp [hp]

-- Nothing is missing on the way to where a path leads.

theorem locateEntry_ne_notFound {place : Place} (he : p.isEmpty = false)
    (hw : fs.walk [] p.segments = .ok place) : fs.locateEntry p ≠ .error .notFound := by
  have ⟨blanks, _, hs, _⟩ := p.splitLast_segments
  rw [hs, List.append_assoc] at hw
  have ⟨there, hb, _⟩ := walk_append_eq_ok.mp hw
  have hc := checkPath_ne_notFound he
  simp only [locateEntry, bind, Except.bind, hb]
  cases hp : checkPath p
  case error e => simpa [hp] using hc
  case ok =>
    simp only
    split <;> simp [pure, Except.pure]

theorem createFolder_ne_notFound {place : Place} (he : p.isEmpty = false)
    (hw : fs.walk [] p.segments = .ok place) : fs.createFolder p ≠ .error .notFound := by
  have hl := locateEntry_ne_notFound he hw
  simp only [createFolder, bind, Except.bind]
  cases hp : fs.locateEntry p
  case error e => simpa [hp] using hl
  case ok      => repeat' split
                  all_goals simp_all [pure, Except.pure]

-- Every `..` of the path stands behind folders that exist.
def Retreats (fs : FileSystem) (p : Path) : Prop :=
  ∀ before, before ++ [".."] <+: p.segments → ∃ place, fs.walk [] (before ++ [".."]) = .ok place

namespace Retreats

theorem of_parent (h : fs.Retreats p) : fs.Retreats p.parent := by
  intro before hb
  exact h before <| hb.trans p.parent_prefix

end Retreats

-- The folder above is there already, or it is the last one that is created before.
theorem walk_of_created_parent {fs₁ : FileSystem} {place : Place} (hr : fs.Retreats p)
    (hp : ∀ place, fs.walk [] p.parent.segments ≠ .ok place)
    (hc : fs₁.Creates p.parent parent name entries) :
    (fs₁.created parent name).walk [] p.segments ≠ .ok place := by
  intro hw
  rcases p.parent_segments with he | ⟨dots, s, blanks, hd, hs, _, hj⟩
  · exact hp [] <| by rw [he]; rfl
  · rw [hj, List.append_assoc, List.append_assoc] at hw
    have ⟨there, hq, hw⟩ := walk_append_eq_ok.mp hw
    cases hc.walk_created.symm.trans hq
    have ⟨there, hd', hw⟩ := walk_append_eq_ok.mp hw
    cases (walk_stays hc.at_created hd).symm.trans hd'
    obtain rfl := hc.dots_of_walk hw hs
    have ⟨_, hb⟩ := hr (p.parent.segments ++ dots) <| by simp [hj]
    have ⟨_, hb, _⟩ := walk_append_eq_ok.mp hb
    have ⟨_, hb, _⟩ := walk_append_eq_ok.mp hb
    exact hp _ hb

-- Either nothing is created, or the last folder that is created is the one that the path leads to
-- then. That folder is empty, since the path has not gone back out of it.
theorem createFolders_eq_ok (hr : fs.Retreats p)
    (h : fs.createFolders p = (.ok (), fs')) :
    fs' = fs ∧ (p.isEmpty ∨ fs.isFolder p) ∨ (∀ place, fs.walk [] p.segments ≠ .ok place) ∧
      ∃ (fs₁ : FileSystem) (parent : Place) (name : String) (entries : Table Node),
        fs₁.Creates p parent name entries ∧ fs' = fs₁.created parent name := by
  fun_induction createFolders fs p generalizing fs'
  case case1 he                      => cases h; exact .inl ⟨rfl, .inl he⟩
  case case8 hf                      => cases h; exact .inl ⟨rfl, .inr hf⟩
  case case3 | case6 | case7 | case9 => cases h
  case case2 hc =>
    cases h
    obtain ⟨_, _, _, hc', rfl⟩ := creates_of_createFolder hc
    exact .inr ⟨hc'.not_walk, _, _, _, _, hc', rfl⟩
  case case4 p he hn _ fs₁ hp _ hc ih =>
    cases h
    have hw place (hw : fs.walk [] p.segments = .ok place) : False :=
      createFolder_ne_notFound (by simpa using he) hw hn
    rcases ih hr.of_parent hp with ⟨rfl, _⟩ | ⟨_, _, _, _, _, hc', rfl⟩
    · cases hn.symm.trans hc
    · obtain ⟨_, _, _, hp', rfl⟩ := creates_of_createFolder hc
      exact .inr ⟨hw, _, _, _, _, hp', rfl⟩
  case case5 p _ _ _ fs₁ hp _ _ hf ih =>
    cases h
    rcases ih hr.of_parent hp with ⟨rfl, _⟩ | ⟨hq, _, _, _, _, hc, rfl⟩
    · exact .inl ⟨rfl, .inr hf⟩
    · have ⟨_, hl⟩ := locate_of_isFolder hf
      exact absurd (locate_eq_ok.mp hl).right <| walk_of_created_parent hr hq hc

end FileSystem

end Palette
