import Palette.Proofs.FileSystem.Walk

-- What operations do at the path of a name in a folder. All of them only change the table of that
-- folder, which is the place that the path of the folder leads to.

namespace Palette

open FileSystem (isName maxNameBytes pathBytesLimit)

-- What a program may ask an entry to be called.
def PlainName (name : String) : Prop :=
  isName name ∧ '\x00' ∉ name.toList

namespace PlainName

variable {name : String}

theorem ne_empty (h : PlainName name) : name ≠ "" := by
  rintro rfl
  cases h.left

end PlainName

namespace Path

variable {p : Path} {name : String}

theorem join_nul (hp : '\x00' ∉ p.text.toList) (hn : '\x00' ∉ name.toList) :
    '\x00' ∉ (p.join name).text.toList := by
  have ⟨before, hj, hs⟩ := p.join_segments name
  intro h
  rcases mem_text h with h | ⟨s, hm, hc⟩
  · cases h
  · rw [hj, List.mem_append, List.mem_singleton] at hm
    rcases hm with hm | rfl
    · refine hp <| mem_text_of_mem ?_ hc
      rcases hs with hs | hs <;> simp [hs, hm]
    · exact hn hc

theorem isEmpty_of_segments (h : p.segments = []) : p.isEmpty := by
  simp [isEmpty, h]

theorem join_not_isEmpty (hn : name ≠ "") : (p.join name).isEmpty = false := by
  have ⟨before, hj, _⟩ := p.join_segments name
  simp [isEmpty, hj, hn]

end Path

namespace FileSystem

variable {fs fs' : FileSystem} {p : Path} {place : Place} {name : String}
variable {entries t u : Table Node}

def Leads (fs : FileSystem) (p : Path) (place : Place) : Prop :=
  '\x00' ∉ p.text.toList ∧ fs.walk [] p.segments = .ok place

namespace Leads

theorem grows (h : fs.Leads p place) (hg : fs.root.Grows fs'.root) : fs'.Leads p place :=
  ⟨h.left, walk_grows hg h.right⟩

-- What stands before a joined name leads to the same place, with or without a slash behind it.
theorem before (h : fs.Leads p place) {before : List String}
    (hs : p.segments = before ∨ p.segments = before ++ [""]) : fs.walk [] before = .ok place := by
  rcases hs with rfl | hs
  · exact h.right
  · have ⟨there, hb, ht⟩ := walk_append_eq_ok.mp <| hs ▸ h.right
    have ⟨_, hs⟩ := walk_cons_eq_ok.mp ht
    rcases hs with ⟨_, he⟩ | ⟨hd, _⟩ | ⟨hn, _⟩
    · cases he
      exact hb
    · exact absurd hd (by decide)
    · exact absurd hn (by decide)

theorem locateEntry_join (h : fs.Leads p place) (hf : fs.at? place = some (.folder entries))
    (hn : PlainName name) (hl : (p.join name).text.utf8ByteSize < pathBytesLimit) :
    fs.locateEntry (p.join name) = .ok (place, entries, some name) := by
  have ⟨before, hj, hs⟩ := p.join_segments name
  have hc := checkPath_eq_ok.mpr ⟨p.join_nul h.left hn.right, p.join_not_isEmpty hn.ne_empty, hl⟩
  have hsl := Path.splitLast_concat hj hn.ne_empty
  exact locateEntry_eq_ok.mpr ⟨hc, hsl ▸ h.before hs, hf, by rw [hsl]⟩

theorem createFolder_join (h : fs.Leads p place) (hf : fs.at? place = some (.folder entries))
    (hn : PlainName name) (hl : (p.join name).text.utf8ByteSize < pathBytesLimit) :
    fs.createFolder (p.join name) =
      if maxNameBytes < name.utf8ByteSize then .error .nameTooLong
      else if (entries.find? name).isSome then .error .alreadyExists
      else .ok ⟨fs.root.put place (.folder (entries.insert name (.folder .empty)))⟩ := by
  have hp : fs.root.put (place ++ [name]) (.folder .empty) = _ := Node.put_concat hf
  simp [createFolder, h.locateEntry_join hf hn hl, bind, Except.bind, hn.left, hp, pure, Except.pure]

theorem writeBytes_join {content : ByteArray} (h : fs.Leads p place)
    (hf : fs.at? place = some (.folder entries)) (hn : PlainName name)
    (hl : (p.join name).text.utf8ByteSize < pathBytesLimit)
    (hs : name.utf8ByteSize ≤ maxNameBytes) (he : entries.find? name = none) :
    fs.writeBytes (p.join name) content =
      .ok ⟨fs.root.put place (.folder (entries.insert name (.file content)))⟩ := by
  have hp : fs.root.put (place ++ [name]) (.file content) = _ := Node.put_concat hf
  have ⟨before, hj, _⟩ := p.join_segments name
  have ht := Path.not_hasTrailingSlash_concat hj hn.ne_empty
  simp [writeBytes, h.locateEntry_join hf hn hl, bind, Except.bind, hn.left, ht,
    Nat.not_lt.mpr hs, he, hp, pure, Except.pure]

theorem writeBytes_join_of_long {content : ByteArray} (h : fs.Leads p place) (hn : PlainName name)
    (hl : pathBytesLimit ≤ (p.join name).text.utf8ByteSize) :
    fs.writeBytes (p.join name) content = .error .nameTooLong := by
  have hc : checkPath (p.join name) = .error .nameTooLong := by
    simp [checkPath, p.join_nul h.left hn.right, p.join_not_isEmpty hn.ne_empty, hl]
  simp [writeBytes, locateEntry, bind, Except.bind, hc]

theorem join (h : fs.Leads p place) (hf : fs.at? place = some (.folder entries))
    (hn : PlainName name) (hs : name.utf8ByteSize ≤ maxNameBytes)
    (he : (entries.find? name).isSome) : fs.Leads (p.join name) (place ++ [name]) := by
  have ⟨before, hj, hb⟩ := p.join_segments name
  refine ⟨p.join_nul h.left hn.right, hj ▸ walk_append_eq_ok.mpr ⟨place, h.before hb, ?_⟩⟩
  refine walk_cons_eq_ok.mpr ⟨⟨entries, hf⟩, .inr <| .inr ⟨hn.left, hs, ?_, rfl⟩⟩
  exact at?_concat hf ▸ Option.isSome_iff_exists.mp he

end Leads

def putFolder (fs : FileSystem) (place : Place) (t : Table Node) : FileSystem :=
  ⟨fs.root.put place (.folder t)⟩

theorem putFolder_putFolder (h : fs.at? place = some (.folder t)) {t' : Table Node} :
    (fs.putFolder place t').putFolder place u = fs.putFolder place u :=
  congrArg _ <| Node.put_put h

-- A folder below the one that has been put is an entry of it.
theorem putFolder_concat (h : fs.at? place = some (.folder t)) {t' : Table Node} :
    (fs.putFolder place t').putFolder (place ++ [name]) u =
      fs.putFolder place (t'.insert name (.folder u)) := by
  have hf : (fs.putFolder place t').root.at? place = some (.folder t') := Node.at?_put_self h
  have hp : (fs.putFolder place t').root.put (place ++ [name]) (.folder u) = _ := Node.put_concat hf
  exact congrArg _ <| hp.trans <| Node.put_put h

-- A path leads to a folder with a table.
structure At (fs : FileSystem) (p : Path) (place : Place) (t : Table Node) : Prop where
  leads  : fs.Leads p place
  folder : fs.at? place = some (.folder t)

namespace At

theorem putFolder_self (h : fs.At p place t) : fs.putFolder place t = fs := by
  have : fs.root.put place (.folder t) = fs.root := Node.put_at? h.folder
  rw [putFolder, this]

theorem putFolder (h : fs.At p place t) (hg : Node.Grows (.folder t) (.folder u)) :
    (fs.putFolder place u).At p place u where
  leads  := h.leads.grows <| .put h.folder hg
  folder := Node.at?_put_self h.folder

-- A file only comes to where there is no folder.
theorem insert_file {content : ByteArray} (h : fs.At p place t)
    (hf : ∀ old, t.find? name ≠ some (.folder old)) :
    (fs.putFolder place (t.insert name (.file content))).At p place
      (t.insert name (.file content)) := by
  refine h.putFolder <| .insert fun old ho => ?_
  cases old
  case file   => exact .file
  case folder => exact absurd ho <| hf _

-- With a new entry.
theorem insert (h : fs.At p place t) (hf : t.find? name = none) (n : Node) :
    (fs.putFolder place (t.insert name n)).At p place (t.insert name n) :=
  h.putFolder <| .insert <| by simp [hf]

theorem enter (h : fs.At p place t) (hf : t.find? name = some (.folder u)) (hn : PlainName name)
    (hs : name.utf8ByteSize ≤ maxNameBytes) : fs.At (p.join name) (place ++ [name]) u where
  leads  := h.leads.join h.folder hn hs <| by simp [hf]
  folder := (at?_concat h.folder).trans hf

theorem createFolder_eq_ok (h : fs.At p place t) (hn : PlainName name)
    (hl : (p.join name).text.utf8ByteSize < pathBytesLimit) :
    fs.createFolder (p.join name) = .ok fs' ↔
      t.find? name = none ∧ name.utf8ByteSize ≤ maxNameBytes ∧
        fs' = fs.putFolder place (t.insert name (.folder .empty)) := by
  rw [h.leads.createFolder_join h.folder hn hl]
  split
  case isTrue hs => simp [Nat.not_le.mpr hs]
  case isFalse hs =>
    rw [← Option.not_isSome_iff_eq_none]
    split
    case isTrue he  => simp [he]
    case isFalse he =>
      simp only [Except.ok.injEq, he, Nat.not_lt.mp hs, Bool.false_eq_true, not_false_eq_true,
        true_and]
      exact eq_comm

end At

-- What has been written in a folder tells where the path of the folder leads.

theorem Leads.of_join (hn : name ≠ "") (hc : checkPath (p.join name) = .ok ())
    (hw : fs.walk [] (p.join name).splitLast.1 = .ok place)
    (hf : fs.at? place = some (.folder entries)) : fs.Leads p place := by
  have ⟨before, hj, hs⟩ := p.join_segments name
  rw [Path.splitLast_concat hj hn] at hw
  refine ⟨fun h => ?nul, ?walk⟩
  case nul =>
    apply (checkPath_eq_ok.mp hc).left
    rcases Path.mem_text h with h | ⟨s, hm, h⟩
    · cases h
    · refine Path.mem_text_of_mem ?_ h
      rcases hs with hs | hs <;> rw [hs] at hm
      · exact hj ▸ List.mem_append_left _ hm
      · rcases List.mem_append.mp hm with hm | hm
        · exact hj ▸ List.mem_append_left _ hm
        · cases List.mem_singleton.mp hm
          cases h
  case walk =>
    rcases hs with hs | hs <;> rw [hs]
    · exact hw
    · refine walk_append_eq_ok.mpr ⟨place, hw, ?_⟩
      exact walk_cons_eq_ok.mpr ⟨⟨_, hf⟩, .inl ⟨rfl, rfl⟩⟩

-- A path ends in a name, and what stands before it leads to a folder with these entries.
structure Enters (fs : FileSystem) (p : Path) (parent : Place) (name : String)
    (entries : Table Node) : Prop where
  entry  : fs.locateEntry p = .ok (parent, entries, some name)
  proper : isName name
  short  : name.utf8ByteSize ≤ maxNameBytes
  last   : p.hasTrailingSlash = false

theorem entry_of_writeBytes {content : ByteArray} (h : fs.writeBytes p content = .ok fs') :
    ∃ (parent : Place) (last : String) (entries : Table Node),
      fs.Enters p parent last entries ∧ (∀ old, entries.find? last ≠ some (.folder old)) ∧
      fs' = fs.putFolder parent (entries.insert last (.file content)) := by
  simp only [writeBytes, bind, Except.bind] at h
  split at h
  case h_1 => cases h
  case h_2 v he =>
    obtain ⟨parent, entries, _ | last⟩ := v
    case none => cases h
    case some =>
      have ⟨_, _, hf, _⟩ := locateEntry_eq_ok.mp he
      simp only at h
      split at h
      case isTrue => cases h
      case isFalse hn =>
        split at h
        case isTrue => cases h
        case isFalse hl =>
          split at h
          case h_1 => cases h
          case h_2 hu =>
            cases h
            have hp : fs.root.put (parent ++ [last]) (.file content) = _ := Node.put_concat hf
            have ⟨hn, ht⟩ : isName last ∧ p.hasTrailingSlash = false := by simpa using hn
            exact ⟨parent, last, entries, ⟨he, hn, Nat.not_lt.mp hl, ht⟩, hu, by rw [hp, putFolder]⟩

theorem writeBytes_join_eq_ok {content : ByteArray} (hn : name ≠ "")
    (h : fs.writeBytes (p.join name) content = .ok fs') :
    ∃ place t, fs.At p place t ∧ (∀ old, t.find? name ≠ some (.folder old)) ∧
      (p.join name).text.utf8ByteSize < pathBytesLimit ∧
      fs' = fs.putFolder place (t.insert name (.file content)) := by
  obtain ⟨place, last, t, he, hu, rfl⟩ := entry_of_writeBytes h
  have ⟨hc, hw, hf, hl⟩ := locateEntry_eq_ok.mp he.entry
  have ⟨before, hj, _⟩ := p.join_segments name
  rw [Path.splitLast_concat hj hn] at hl
  cases hl
  exact ⟨place, t, ⟨.of_join hn hc hw hf, hf⟩, hu, (checkPath_eq_ok.mp hc).right.right, rfl⟩

end FileSystem

end Palette
