import Palette.FileSystem.Basic
import Palette.Proofs.Table

-- What changes in a tree when one place of it does.

namespace Palette

namespace Node

variable {n m v w : Node} {place rest : Place} {name : String} {entries : Table Node}

@[simp]
theorem at?_nil : n.at? [] = some n := by
  cases n <;> rfl

theorem at?_folder_cons :
    (folder entries).at? (name :: rest) = (entries.find? name).bind (·.at? rest) := by
  rw [at?]
  cases entries.find? name <;> rfl

@[simp]
theorem at?_file_cons {content : ByteArray} : (file content).at? (name :: rest) = none :=
  rfl

theorem at?_append : n.at? (place ++ rest) = (n.at? place).bind (·.at? rest) := by
  induction place generalizing n
  case nil => simp
  case cons name place ih =>
    cases n
    case file => rfl
    case folder entries =>
      simp only [List.cons_append, at?_folder_cons]
      cases entries.find? name <;> simp [ih]

-- What a node has to be for something to be found below it.
theorem at?_cons_eq_some :
    n.at? (name :: rest) = some m ↔
      ∃ (entries : Table Node) (child : Node), n = folder entries ∧ entries.find? name = some child ∧
        child.at? rest = some m := by
  cases n
  case file   => simp
  case folder => simp [at?_folder_cons, Option.bind_eq_some_iff]

@[simp]
theorem put_nil : n.put [] v = v := by
  cases n <;> rfl

theorem put_folder_cons {child : Node} (h : entries.find? name = some child) :
    (folder entries).put (name :: rest) v = folder (entries.insert name (child.put rest v)) := by
  simp [put, h]

theorem put_append (h : n.at? place = some m) :
    n.put (place ++ rest) v = n.put place (m.put rest v) := by
  induction place generalizing n
  case nil => simp_all
  case cons name place ih =>
    obtain ⟨entries, child, rfl, hf, hc⟩ := at?_cons_eq_some.mp h
    rw [List.cons_append, put_folder_cons hf, put_folder_cons hf, ih hc]

-- A new entry of a folder only changes the table of that folder.
theorem put_concat (h : n.at? place = some (.folder entries)) :
    n.put (place ++ [name]) v = n.put place (.folder (entries.insert name v)) := by
  rw [put_append h, put, put_nil]

theorem at?_put (h : n.at? place = some m) : (n.put place v).at? (place ++ rest) = v.at? rest := by
  induction place generalizing n
  case nil => simp
  case cons name place ih =>
    obtain ⟨entries, child, rfl, hf, hc⟩ := at?_cons_eq_some.mp h
    rw [put_folder_cons hf, List.cons_append, at?_folder_cons, Table.find?_insert_self]
    exact ih hc

theorem at?_put_self (h : n.at? place = some m) : (n.put place v).at? place = some v := by
  have hp : (n.put place v).at? (place ++ []) = v.at? [] := at?_put h
  rwa [List.append_nil] at hp

theorem put_put (h : n.at? place = some m) : (n.put place v).put place w = n.put place w := by
  induction place generalizing n
  case nil => simp
  case cons name place ih =>
    obtain ⟨entries, child, rfl, hf, hc⟩ := at?_cons_eq_some.mp h
    rw [put_folder_cons hf, put_folder_cons hf, put_folder_cons Table.find?_insert_self,
      Table.insert_insert, ih hc]

theorem remove_concat (h : n.at? place = some (.folder entries)) :
    n.remove (place ++ [name]) = n.put place (.folder (entries.erase name)) := by
  induction place generalizing n
  case nil => simp_all [remove]
  case cons first place ih =>
    obtain ⟨_, child, rfl, hf, hc⟩ := at?_cons_eq_some.mp h
    have hp := ih hc
    rw [put_folder_cons hf, ← hp]
    cases place <;> simp [remove, hf]

theorem put_at? (h : n.at? place = some m) : n.put place m = n := by
  induction place generalizing n
  case nil => simp_all
  case cons name place ih =>
    obtain ⟨entries, child, rfl, hf, hc⟩ := at?_cons_eq_some.mp h
    rw [put_folder_cons hf, ih hc, Table.insert_of_find? hf]

-- Whatever can be walked to in one tree can be walked to in the other one.
def Grows (n n' : Node) : Prop :=
  ∀ place m, n.at? place = some m → ∃ m', n'.at? place = some m' ∧
    ∀ entries, m = .folder entries → ∃ entries', m' = .folder entries'

namespace Grows

theorem refl : n.Grows n :=
  fun _ m h => ⟨m, h, fun entries he => ⟨entries, he⟩⟩

theorem file {content content' : ByteArray} : Grows (.file content) (.file content') := by
  intro place m hm
  cases place
  case nil => cases hm; exact ⟨_, at?_nil, nofun⟩
  case cons => cases hm

theorem folder {entries' : Table Node}
    (h : ∀ name child, entries.find? name = some child →
      ∃ child', entries'.find? name = some child' ∧ child.Grows child') :
    Grows (.folder entries) (.folder entries') := by
  intro place m hm
  cases place
  case nil => exact ⟨_, at?_nil, fun _ _ => ⟨_, rfl⟩⟩
  case cons name place =>
    obtain ⟨_, child, he, hf, hc⟩ := at?_cons_eq_some.mp hm
    cases he
    have ⟨child', hf', hg⟩ := h name child hf
    have ⟨m', hm', hm⟩ := hg place m hc
    exact ⟨m', at?_cons_eq_some.mpr ⟨_, child', rfl, hf', hm'⟩, hm⟩

theorem empty : Grows (.folder .empty) (.folder entries) :=
  .folder nofun

theorem insert {child : Node} (h : ∀ old, entries.find? name = some old → old.Grows child) :
    Grows (.folder entries) (.folder (entries.insert name child)) := by
  apply Grows.folder
  intro other old hf
  by_cases hn : other = name
  case pos =>
    subst hn
    exact ⟨child, Table.find?_insert_self, h old hf⟩
  case neg => exact ⟨old, (Table.find?_insert_of_ne hn).trans hf, .refl⟩

theorem put (h : n.at? place = some m) (hv : m.Grows v) : n.Grows (n.put place v) := by
  induction place generalizing n
  case nil => simp_all
  case cons name place ih =>
    obtain ⟨entries, child, rfl, hf, hc⟩ := at?_cons_eq_some.mp h
    rw [put_folder_cons hf]
    refine .insert fun old ho => ?_
    cases hf.symm.trans ho
    exact ih hc

theorem of_put (h : n.at? place = some m) (hv : v.Grows m) : (n.put place v).Grows n := by
  have hg := Grows.put (at?_put_self (v := v) h) hv
  rwa [put_put h, put_at? h] at hg

end Grows

end Node

end Palette
