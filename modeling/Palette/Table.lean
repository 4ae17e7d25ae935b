-- Tables from names to values. The names are kept apart from the values and in their order, so that a
-- table is known by what is found in it. What is under a name is what was last inserted there.

namespace Palette

-- Names in ascending order, with a value for each.
structure Table (α : Type) where
  names : List String
  sorted : names.Pairwise (· < ·)
  value : {name // name ∈ names} → α

namespace Table

variable {α : Type}

-- Names in ascending order with one more, unless it is one of them.
def insertName (name : String) : List String → List String
  | [] => [name]
  | n :: rest =>
    if n = name then n :: rest
    else if name < n then name :: n :: rest
    else n :: insertName name rest

theorem mem_insertName {names : List String} :
    other ∈ insertName name names ↔ other = name ∨ other ∈ names := by
  induction names with
  | nil => simp [insertName]
  | cons n rest ih =>
    rw [insertName]
    split
    case isTrue eq => simp [eq]
    case isFalse =>
      split
      · simp
      · simp [ih, or_left_comm]

theorem sorted_insertName {names : List String} (h : names.Pairwise (· < ·)) :
    (insertName name names).Pairwise (· < ·) := by
  induction names with
  | nil => exact List.pairwise_singleton ..
  | cons n rest ih =>
    obtain ⟨hl, hr⟩ := List.pairwise_cons.mp h
    rw [insertName]
    split
    case isTrue => exact h
    case isFalse ne =>
      split
      case isTrue lt =>
        refine List.pairwise_cons.mpr ⟨fun other hm => ?_, h⟩
        rcases List.mem_cons.mp hm with rfl | hm
        · exact lt
        · exact String.lt_trans lt (hl other hm)
      case isFalse ge =>
        refine List.pairwise_cons.mpr ⟨fun other hm => ?_, ih hr⟩
        rcases mem_insertName.mp hm with rfl | hm
        · refine Decidable.byContradiction fun ge' => ne ?_
          exact String.le_antisymm (String.not_lt.mp ge) (String.not_lt.mp ge')
        · exact hl other hm

def empty : Table α where
  names := []
  sorted := .nil
  value name := absurd name.property List.not_mem_nil

instance : Inhabited (Table α) := ⟨empty⟩

def find? (name : String) (t : Table α) : Option α :=
  if h : name ∈ t.names then some (t.value ⟨name, h⟩) else none

-- The table with a value under a name, in the place of any other there.
def insert (name : String) (value : α) (t : Table α) : Table α where
  names := insertName name t.names
  sorted := sorted_insertName t.sorted
  value other :=
    if h : other.val = name then value
    else t.value ⟨other, (mem_insertName.mp other.property).resolve_left h⟩

def erase (name : String) (t : Table α) : Table α where
  names := t.names.filter (· ≠ name)
  sorted := t.sorted.filter _
  value other := t.value ⟨other, (List.mem_filter.mp other.property).left⟩

-- A table of some entries. Of two with the same name the later one counts.
def ofList (entries : List (String × α)) : Table α :=
  entries.foldl (fun t e => t.insert e.1 e.2) empty

variable {t : Table α} {name other : String} {a : α}

theorem find?_of_mem (h : name ∈ t.names) : t.find? name = some (t.value ⟨name, h⟩) :=
  dif_pos h

theorem find?_eq_none : t.find? name = none ↔ name ∉ t.names := by
  simp [find?]

theorem mem_names : name ∈ t.names ↔ ∃ a, t.find? name = some a := by
  constructor
  case mp  => exact fun h => ⟨_, find?_of_mem h⟩
  case mpr =>
    rintro ⟨_, h⟩
    refine Decidable.byContradiction fun hn => ?_
    cases (find?_eq_none.mpr hn).symm.trans h

@[simp]
theorem find?_empty : (empty : Table α).find? name = none := rfl

theorem find?_insert_self : (t.insert name a).find? name = some a :=
  (find?_of_mem <| mem_insertName.mpr <| .inl rfl).trans <| congrArg some <| dif_pos rfl

theorem find?_insert_of_ne (h : other ≠ name) : (t.insert name a).find? other = t.find? other := by
  simp [find?, insert, mem_insertName, h]

theorem find?_insert :
    (t.insert name a).find? other = if other = name then some a else t.find? other := by
  split
  case isTrue eq  => exact eq ▸ find?_insert_self
  case isFalse ne => exact find?_insert_of_ne ne

theorem find?_erase_self : (t.erase name).find? name = none :=
  find?_eq_none.mpr <| by simp [erase]

theorem find?_erase_of_ne (h : other ≠ name) : (t.erase name).find? other = t.find? other := by
  by_cases hm : other ∈ t.names
  case pos =>
    have he : other ∈ (t.erase name).names := List.mem_filter.mpr ⟨hm, by simpa using h⟩
    rw [find?_of_mem hm, find?_of_mem he]
    rfl
  case neg =>
    rw [find?_eq_none.mpr hm, find?_eq_none]
    exact fun he => hm (List.mem_filter.mp he).left

end Table

end Palette
