import Palette.Table

-- What is found in tables after a change, and when two of them are the same.

namespace Palette

namespace Table

variable {α : Type} {t u : Table α} {name other : String} {a b : α}

theorem nodup_names : t.names.Nodup := by
  refine t.sorted.imp ?_
  rintro name _ hl rfl
  exact String.lt_irrefl _ hl

-- The order of the names leaves no choice but what is found.
theorem ext (h : ∀ name, t.find? name = u.find? name) : t = u := by
  have names : t.names = u.names := by
    refine List.Perm.eq_of_pairwise ?_ t.sorted u.sorted <|
      (List.perm_ext_iff_of_nodup nodup_names nodup_names).mpr fun name => ?_
    · exact fun _ _ _ _ hl hg => absurd hg <| String.lt_asymm hl
    · rw [mem_names, mem_names, h]
  obtain ⟨names, sorted, value⟩ := t
  obtain ⟨names', sorted', value'⟩ := u
  cases names
  congr 1
  funext ⟨name, hm⟩
  have hv := h name
  rwa [find?_of_mem hm, find?_of_mem hm, Option.some.injEq] at hv

theorem insert_insert : (t.insert name a).insert name b = t.insert name b := by
  apply ext
  intro other
  by_cases h : other = name <;> simp [find?_insert, h]

theorem insert_comm (h : name ≠ other) :
    (t.insert name a).insert other b = (t.insert other b).insert name a := by
  apply ext
  intro n
  by_cases hn : n = name
  case pos => simp [find?_insert, hn, h]
  case neg => simp [find?_insert, hn]

theorem insert_of_find? (h : t.find? name = some a) : t.insert name a = t := by
  apply ext
  intro other
  by_cases hn : other = name <;> simp [find?_insert, hn, h]

theorem erase_insert (h : t.find? name = none) : (t.insert name a).erase name = t := by
  apply ext
  intro other
  by_cases hn : other = name
  case pos => rw [hn, find?_erase_self, h]
  case neg => rw [find?_erase_of_ne hn, find?_insert_of_ne hn]

theorem find?_insert_of_fresh (h : t.find? name = none) :
    (t.insert name a).find? other = some b ↔
      t.find? other = some b ∨ other = name ∧ b = a := by
  by_cases hn : other = name
  case pos =>
    subst hn
    simp [find?_insert_self, h, eq_comm]
  case neg => simp [find?_insert_of_ne hn, hn]

theorem find?_insert_eq_none :
    (t.insert name a).find? other = none ↔ other ≠ name ∧ t.find? other = none := by
  by_cases hn : other = name
  case pos =>
    subst hn
    simp [find?_insert_self]
  case neg => simp [find?_insert_of_ne hn, hn]

-- By induction on the entries, the first of which is inserted first.
theorem find?_foldl {entries : List (String × α)} :
    (entries.foldl (fun t e => t.insert e.1 e.2) t).find? name =
      ((entries.filter (·.1 = name)).getLast?.map Prod.snd).or (t.find? name) := by
  induction entries generalizing t with
  | nil => rfl
  | cons e rest ih =>
    rw [List.foldl_cons, ih]
    by_cases hn : e.1 = name
    case pos =>
      rw [← hn, find?_insert_self, List.filter_cons_of_pos (by simp), List.getLast?_cons]
      cases (rest.filter (·.1 = e.1)).getLast? <;> rfl
    case neg => rw [find?_insert_of_ne (Ne.symm hn), List.filter_cons_of_neg (by simpa)]

-- What is under a name is what came last under it.
theorem find?_ofList {entries : List (String × α)} :
    (ofList entries).find? name = (entries.filter (·.1 = name)).getLast?.map Prod.snd :=
  find?_foldl.trans <| Option.or_none ..

end Table

end Palette
