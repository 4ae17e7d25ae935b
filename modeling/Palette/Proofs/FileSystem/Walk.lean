import Palette.Proofs.FileSystem.Tree

-- Where paths lead to, and what happens to the folder that the last name of a path is in.

namespace Palette

namespace Path

variable {p : Path} {name : String} {before : List String} {c : Char}

-- What stands before a name that was joined to a path.
theorem join_segments (p : Path) (name : String) :
    ∃ before, (p.join name).segments = before ++ [name] ∧
      (p.segments = before ∨ p.segments = before ++ [""]) := by
  rw [join]
  split
  case isFalse => exact ⟨p.segments, rfl, .inl rfl⟩
  case isTrue h =>
    have ⟨before, hb⟩ := List.getLast?_eq_some_iff.mp h
    exact ⟨before, by simp [hb], .inr hb⟩

theorem splitLast_concat (h : p.segments = before ++ [name]) (hn : name ≠ "") :
    p.splitLast = (before, some name) := by
  simp [splitLast, h, hn]

theorem not_hasTrailingSlash_concat (h : p.segments = before ++ [name]) (hn : name ≠ "") :
    p.hasTrailingSlash = false := by
  simp [hasTrailingSlash, h, hn]

theorem mem_text (h : c ∈ p.text.toList) : c = '/' ∨ ∃ s ∈ p.segments, c ∈ s.toList := by
  obtain ⟨segments⟩ := p
  simp only [text] at h
  induction segments
  case nil => simp at h
  case cons s rest ih =>
    by_cases hr : rest = []
    case pos => simp_all
    case neg =>
      rw [String.intercalate_cons_of_ne_nil hr] at h
      simp only [String.toList_append, List.mem_append] at h
      rcases h with (h | h) | h
      · exact .inr ⟨s, List.mem_cons_self, h⟩
      · exact .inl <| by simpa using h
      · exact (ih h).imp_right fun ⟨s, hs, hc⟩ => ⟨s, List.mem_cons_of_mem _ hs, hc⟩

theorem mem_text_of_mem {s : String} (hs : s ∈ p.segments) (hc : c ∈ s.toList) :
    c ∈ p.text.toList := by
  obtain ⟨segments⟩ := p
  simp only [text] at hs ⊢
  induction segments
  case nil => cases hs
  case cons first rest ih =>
    by_cases hr : rest = []
    case pos => simp_all
    case neg =>
      rw [String.intercalate_cons_of_ne_nil hr]
      simp only [String.toList_append, List.mem_append]
      rcases List.mem_cons.mp hs with rfl | hs
      · exact .inl <| .inl hc
      · exact .inr <| ih hs

-- Another name makes the text of a path that ends in a name longer.
theorem text_join (h : p.segments = before ++ [name]) (hn : name ≠ "") (other : String) :
    (p.join other).text = p.text ++ "/" ++ other := by
  have hl : p.segments.getLast? ≠ some "" := by simpa [h] using hn
  rw [join, if_neg hl, text, text, String.intercalate_append_of_ne_nil (by simp [h]) (by simp),
    String.intercalate_singleton]

end Path

namespace FileSystem

variable {fs fs' : FileSystem} {p : Path} {place here there : Place} {name : String}
variable {entries : Table Node} {before segments rest : List String}

theorem at?_concat (h : fs.at? here = some (.folder entries)) :
    fs.at? (here ++ [name]) = entries.find? name := by
  have h : fs.root.at? here = some (.folder entries) := h
  simp only [at?, Node.at?_append, h, Option.bind_some, Node.at?_folder_cons]
  cases entries.find? name <;> simp

-- One segment stays, goes back or goes on to an entry.
theorem walk_cons_eq_ok {s : String} :
    fs.walk here (s :: rest) = .ok place ↔
      (∃ entries, fs.at? here = some (.folder entries)) ∧
      (Path.staysPut s ∧ fs.walk here rest = .ok place ∨
        s = ".." ∧ fs.walk here.dropLast rest = .ok place ∨
        isName s ∧ s.utf8ByteSize ≤ maxNameBytes ∧ (∃ m, fs.at? (here ++ [s]) = some m) ∧
          fs.walk (here ++ [s]) rest = .ok place) := by
  rw [walk]
  split
  case h_2 hf =>
    have hf : ¬∃ entries, fs.at? here = some (.folder entries) := fun ⟨entries, h⟩ => hf entries h
    simp [hf]
  case h_1 entries hf =>
    have dots : Path.staysPut ".." = false := rfl
    simp only [at?_concat hf, hf, isName]
    split
    case isTrue hs =>
      have : s ≠ ".." := by rintro rfl; simp [dots] at hs
      simp [hs, this]
    case isFalse hs =>
      split
      case isTrue hd => subst hd; simp [dots]
      case isFalse hd =>
        split
        case isTrue hl  => simp [hs, hd, Nat.not_le.mpr hl]
        case isFalse hl =>
          split
          case isTrue he  => simp [hs, hd, Nat.not_lt.mp hl, Option.isSome_iff_exists.mp he]
          case isFalse he => simp_all

theorem walk_append_eq_ok :
    fs.walk here (before ++ rest) = .ok place ↔
      ∃ there, fs.walk here before = .ok there ∧ fs.walk there rest = .ok place := by
  induction before generalizing here
  case nil => simp [walk]
  case cons s before ih =>
    rw [List.cons_append, walk, walk]
    split
    case h_2 => simp
    case h_1 =>
      repeat' split
      all_goals simp [ih]

theorem walk_grows (hg : fs.root.Grows fs'.root) (h : fs.walk here segments = .ok place) :
    fs'.walk here segments = .ok place := by
  induction segments generalizing here
  case nil => exact h
  case cons s rest ih =>
    have ⟨⟨entries, hf⟩, hs⟩ := walk_cons_eq_ok.mp h
    have ⟨_, hm, hf'⟩ := hg here _ hf
    obtain ⟨entries', rfl⟩ := hf' entries rfl
    refine walk_cons_eq_ok.mpr ⟨⟨entries', hm⟩, ?_⟩
    rcases hs with ⟨hs, h⟩ | ⟨hs, h⟩ | ⟨hn, hl, ⟨m, he⟩, h⟩
    · exact .inl ⟨hs, ih h⟩
    · exact .inr <| .inl ⟨hs, ih h⟩
    · have ⟨m', he', _⟩ := hg _ m he
      exact .inr <| .inr ⟨hn, hl, ⟨m', he'⟩, ih h⟩

theorem checkPath_eq_ok :
    checkPath p = .ok () ↔
      '\x00' ∉ p.text.toList ∧ p.isEmpty = false ∧ p.text.utf8ByteSize < pathBytesLimit := by
  rw [checkPath]
  repeat' split
  all_goals simp_all

theorem locate_eq_ok :
    fs.locate p = .ok place ↔ checkPath p = .ok () ∧ fs.walk [] p.segments = .ok place := by
  simp only [locate, bind, Except.bind]
  cases checkPath p <;> simp

theorem locateEntry_eq_ok {last : Option String} :
    fs.locateEntry p = .ok (place, entries, last) ↔
      checkPath p = .ok () ∧ fs.walk [] p.splitLast.1 = .ok place ∧
        fs.at? place = some (.folder entries) ∧ last = p.splitLast.2 := by
  simp only [locateEntry, bind, Except.bind]
  cases checkPath p
  case error => simp
  case ok =>
    cases hw : fs.walk [] p.splitLast.1
    case error => simp
    case ok there =>
      simp only [true_and, Except.ok.injEq]
      split
      case h_1 entries' hf =>
        simp only [pure, Except.pure, Except.ok.injEq, Prod.mk.injEq]
        constructor
        · rintro ⟨rfl, rfl, rfl⟩
          exact ⟨rfl, hf, rfl⟩
        · rintro ⟨rfl, hf', rfl⟩
          simp_all
      case h_2 hf =>
        simp only [reduceCtorEq, false_iff, not_and]
        rintro rfl hf'
        exact absurd hf' <| hf entries

end FileSystem

end Palette
