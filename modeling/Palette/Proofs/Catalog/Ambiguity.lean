import Palette.Proofs.Catalog.Admissible

-- Names that are run together can be cut in more than one way. Two declarations have the same
-- qualified name only if their names do so, which takes a group whose name begins that of another
-- item beside it.

namespace Palette

namespace Item

mutual

-- All declarations in the order of the sheet, each with the names of the groups around it.

def declarations : Item → List (List String × Declaration)
  | .declaration d    => [([], d)]
  | .group name items => (declarationsOf items).map (.map (name :: ·) id)

def declarationsOf : List Item → List (List String × Declaration)
  | []        => []
  | i :: rest => i.declarations ++ declarationsOf rest

end

-- The names that lead to a declaration, with its own.
def fullName (place : List String × Declaration) : List String :=
  place.1 ++ [place.2.name]

-- By recursion over the items, in each of which a path may begin.
theorem mem_declarationsOf {items : List Item} {path : List String} {d : Declaration} :
    (path, d) ∈ declarationsOf items ↔ ∃ scope, Scope items path scope ∧ .declaration d ∈ scope := by
  match items with
  | [] =>
    refine ⟨nofun, ?_⟩
    rintro ⟨_, _ | ⟨hg, _⟩, hd⟩
    · cases hd
    · cases hg
  | .declaration d' :: rest =>
    rw [declarationsOf, declarations, List.singleton_append, List.mem_cons, mem_declarationsOf]
    constructor
    case mp =>
      rintro (hd | ⟨scope, hs, hd⟩)
      · cases hd
        exact ⟨_, .here, List.mem_cons_self⟩
      · have ⟨scope', hs', hl⟩ := hs.cons (i := .declaration d')
        exact ⟨scope', hs', hl.mem hd⟩
    case mpr =>
      rintro ⟨_, _ | ⟨hg, hs⟩, hd⟩
      · rcases List.mem_cons.mp hd with hd | hd
        · cases hd
          exact .inl rfl
        · exact .inr ⟨_, .here, hd⟩
      · exact .inr ⟨_, .inner ((List.mem_cons.mp hg).resolve_left nofun) hs, hd⟩
  | .group name inner :: rest =>
    rw [declarationsOf, declarations, List.mem_append, List.mem_map, mem_declarationsOf]
    constructor
    case mp =>
      rintro (⟨⟨path', d'⟩, hm, he⟩ | ⟨scope, hs, hd⟩)
      · have ⟨scope, hs, hd⟩ := mem_declarationsOf.mp hm
        cases he
        exact ⟨scope, .inner List.mem_cons_self hs, hd⟩
      · have ⟨scope', hs', hl⟩ := hs.cons (i := .group name inner)
        exact ⟨scope', hs', hl.mem hd⟩
    case mpr =>
      rintro ⟨_, _ | ⟨hg, hs⟩, hd⟩
      · exact .inr ⟨_, .here, (List.mem_cons.mp hd).resolve_left nofun⟩
      · rcases List.mem_cons.mp hg with hg | hg
        · cases hg
          exact .inl ⟨(_, d), mem_declarationsOf.mpr ⟨_, hs, hd⟩, rfl⟩
        · exact .inr ⟨_, .inner hg hs, hd⟩

variable {items scope scope' inner inner' : List Item} {path front : List String} {name : String}
variable {d : Declaration}

theorem Scope.of_append (h : Scope items (front ++ path) scope) :
    ∃ middle, Scope items front middle ∧ Scope middle path scope := by
  induction front generalizing items
  case nil => exact ⟨items, .here, h⟩
  case cons name front ih =>
    cases h with
    | inner hg hs =>
      have ⟨middle, hm, hs⟩ := ih hs
      exact ⟨middle, .inner hg hm, hs⟩

theorem members_unique (h : (groupNames items).Nodup) (hg : .group name inner ∈ items)
    (hg' : .group name inner' ∈ items) : inner = inner' := by
  induction items
  case nil => cases hg
  case cons i rest ih =>
    cases i
    case declaration =>
      exact ih h ((List.mem_cons.mp hg).resolve_left nofun) ((List.mem_cons.mp hg').resolve_left nofun)
    case group other members =>
      have ⟨hn, hr⟩ := List.nodup_cons.mp h
      have fresh {members : List Item} (hm : .group other members ∈ rest) : False :=
        hn <| mem_groupNames.mpr ⟨members, hm⟩
      rcases List.mem_cons.mp hg with he | hm <;> rcases List.mem_cons.mp hg' with he' | hm'
      · cases he; cases he'; rfl
      · cases he; exact (fresh hm').elim
      · cases he'; exact (fresh hm).elim
      · exact ih hr hm hm'

theorem Scope.unique (h : Scope items path scope) (h' : Scope items path scope')
    (hn : ∀ path scope, Scope items path scope → (groupNames scope).Nodup) : scope = scope' := by
  induction h
  case here => cases h'; rfl
  case inner hg _ ih =>
    cases h' with
    | inner hg' hs' =>
      cases members_unique (hn _ _ .here) hg hg'
      exact ih hs' fun _ _ hs => hn _ _ <| .inner hg hs

variable (items) in
-- The name of a group begins the name of another item beside it. The first path of names goes on to
-- that group, and the other path to that item.
def Confusable (names names' : List String) : Prop :=
  ∃ front scope x y, Scope items front scope ∧ x ∈ groupNames scope ∧
    (y ∈ groupNames scope ∨ y ∈ declarationNames scope) ∧ x ≠ y ∧ x.toList <+: y.toList ∧
    front ++ [x] <+: names ∧ front ++ [y] <+: names'

end Item

-- The paths part where a name of the first one, which goes on, begins the name of the other one.
def Forks (names names' : List String) : Prop :=
  ∃ front x y rest rest', names = front ++ x :: rest ∧ names' = front ++ y :: rest' ∧ rest ≠ [] ∧
    x ≠ y ∧ x.toList <+: y.toList

namespace Forks

variable {names names' : List String} {name other : String}

theorem cons (h : Forks names names') : Forks (name :: names) (name :: names') := by
  obtain ⟨front, x, y, rest, rest', rfl, rfl, h⟩ := h
  exact ⟨name :: front, x, y, rest, rest', rfl, rfl, h⟩

theorem of_begins (hp : name.toList <+: other.toList) (hn : name ≠ other)
    (hj : String.join (name :: names) = String.join (other :: names')) :
    Forks (name :: names) (other :: names') := by
  refine ⟨[], name, other, names, names', rfl, rfl, ?_, hn, hp⟩
  rintro rfl
  have hl := congrArg String.toList hj
  simp only [String.join_cons, String.toList_append] at hl
  refine hn <| String.toList_inj.mp <| hp.eq_of_length_le ?_
  simp_all

theorem eq_nil_of_join (hn : "" ∉ names) (hj : String.join names = "") : names = [] := by
  cases names
  case nil => rfl
  case cons name rest =>
    have ⟨he, _⟩ := String.append_eq_empty_iff.mp <| String.join_cons ▸ hj
    exact absurd List.mem_cons_self (he ▸ hn)

-- By induction on the first path. As long as the names are the same, both texts go on alike.
theorem of_join_eq (hn : "" ∉ names) (hn' : "" ∉ names')
    (hj : String.join names = String.join names') (hd : names ≠ names') :
    Forks names names' ∨ Forks names' names := by
  induction names generalizing names'
  case nil => exact absurd (eq_nil_of_join hn' hj.symm).symm hd
  case cons x rest ih =>
    cases names'
    case nil => exact absurd (eq_nil_of_join hn hj) hd
    case cons y rest' =>
      by_cases hx : x = y
      case pos =>
        subst hx
        have hj : String.join rest = String.join rest' := by simpa [String.join_cons] using hj
        have := ih (List.not_mem_of_not_mem_cons hn) (List.not_mem_of_not_mem_cons hn') hj
          fun he => hd <| he ▸ rfl
        exact this.imp cons cons
      case neg =>
        have hl : x.toList ++ (String.join rest).toList = y.toList ++ (String.join rest').toList := by
          simpa [String.join_cons, ← String.toList_inj] using hj
        have hp : x.toList <+: y.toList ++ (String.join rest').toList := hl ▸ List.prefix_append ..
        rcases List.prefix_or_prefix_of_prefix hp (List.prefix_append ..) with hp | hp
        · exact .inl <| .of_begins hp hx hj
        · exact .inr <| .of_begins hp (Ne.symm hx) hj.symm

end Forks

namespace Catalog

open Item (Scope declarationsOf fullName mem_declarationsOf)

variable {Γ : Context} {qualifier : String} {items : List Item} {a b : List String × Declaration}
variable {path front rest : List String} {d : Declaration} {x : String}

-- A name that leads to a declaration is that of a group if there are more names behind it, and else
-- that of the declaration.

theorem group_of_fullName {scope : List Item} (hs : Scope items path scope)
    (hf : fullName (path, d) = front ++ x :: rest) (hr : rest ≠ []) :
    ∃ middle, Scope items front middle ∧ x ∈ Item.groupNames middle := by
  obtain ⟨names, last, rfl⟩ := List.eq_nil_or_concat rest |>.resolve_left hr
  have hp : path ++ [d.name] = (front ++ x :: names) ++ [last] := by simpa [fullName] using hf
  obtain rfl := (List.append_inj' hp rfl).left
  obtain ⟨middle, hm, _ | ⟨hg, _⟩⟩ := hs.of_append
  exact ⟨middle, hm, Item.mem_groupNames.mpr ⟨_, hg⟩⟩

theorem item_of_fullName {scope : List Item} (hs : Scope items path scope)
    (hd : .declaration d ∈ scope) (hf : fullName (path, d) = front ++ x :: rest) :
    ∃ middle, Scope items front middle ∧
      (x ∈ Item.groupNames middle ∨ x ∈ Item.declarationNames middle) := by
  by_cases hr : rest = []
  case pos =>
    subst hr
    obtain ⟨rfl, hn⟩ := List.append_inj' hf rfl
    exact ⟨scope, hs, .inr <| Item.mem_declarationNames.mpr ⟨d, hd, (List.cons.inj hn).left⟩⟩
  case neg =>
    have ⟨middle, hm, hg⟩ := group_of_fullName hs hf hr
    exact ⟨middle, hm, .inl hg⟩

namespace Admissible

theorem confusable (h : Admissible Γ qualifier items) (ha : a ∈ declarationsOf items)
    (hb : b ∈ declarationsOf items) (hf : Forks (fullName a) (fullName b)) :
    Item.Confusable items (fullName a) (fullName b) := by
  obtain ⟨front, x, y, rest, rest', hx, hy, hr, hn, hp⟩ := hf
  have ⟨_, hs, _⟩ := mem_declarationsOf.mp ha
  have ⟨_, hs', hd'⟩ := mem_declarationsOf.mp hb
  have ⟨middle, hm, hg⟩ := group_of_fullName hs hx hr
  have ⟨_, hm', hi⟩ := item_of_fullName hs' hd' hy
  cases hm.unique hm' fun _ _ => h.groups
  refine ⟨front, middle, x, y, hm, hg, hi, hn, hp, ?_, ?_⟩
  · exact ⟨rest, by simp [hx]⟩
  · exact ⟨rest', by simp [hy]⟩

-- By recursion over the items. The names of declarations and groups are different ones in each scope.
theorem nodup_fullNames {items : List Item} {qualifier : String}
    (h : Admissible Γ qualifier items) : ((declarationsOf items).map fullName).Nodup := by
  match items with
  | [] => exact .nil
  | .declaration d :: rest =>
    refine List.nodup_cons.mpr ⟨fun hm => ?_, h.tail.nodup_fullNames⟩
    obtain ⟨⟨path, d'⟩, hm, hf⟩ := List.mem_map.mp hm
    obtain ⟨rfl, hn⟩ := List.append_inj' hf rfl
    obtain ⟨_, _ | _, hd⟩ := mem_declarationsOf.mp hm
    refine (List.nodup_cons.mp <| h.declarations .here).left ?_
    exact Item.mem_declarationNames.mpr ⟨d', hd, (List.cons.inj hn).left⟩
  | .group name inner :: rest =>
    have hi := (h.of_mem List.mem_cons_self).nodup_fullNames
    have he : (Item.declarations (.group name inner)).map fullName =
        ((declarationsOf inner).map fullName).map (name :: ·) := by
      simp only [Item.declarations, List.map_map]
      rfl
    rw [declarationsOf, List.map_append, he]
    refine List.nodup_append.mpr ⟨?_, h.tail.nodup_fullNames, ?_⟩
    case refine_1 => exact List.pairwise_map.mpr <| hi.imp fun hn he => hn (List.cons.inj he).right
    case refine_2 =>
      intro _ hm _ hm' he
      obtain ⟨_, hn, rfl⟩ := List.mem_map.mp hm
      obtain ⟨place, _, rfl⟩ := List.mem_map.mp hn
      obtain ⟨_, hp, rfl⟩ := List.mem_map.mp hm'
      obtain ⟨_, hs, _⟩ := mem_declarationsOf.mp hp
      have hf : fullName _ = [] ++ name :: fullName place := he.symm
      obtain ⟨_, _ | _, hg⟩ := group_of_fullName hs hf (by simp [fullName])
      exact (List.nodup_cons.mp <| h.groups .here).left hg

end Admissible

theorem Named.not_mem_fullName (h : Named items) (ha : a ∈ declarationsOf items) :
    "" ∉ fullName a := by
  have ⟨_, hs, hd⟩ := mem_declarationsOf.mp ha
  intro hm
  rcases List.mem_append.mp hm with hm | hm
  · obtain ⟨front, rest, hp⟩ := List.append_of_mem hm
    obtain ⟨_, hs, _ | ⟨hg, _⟩⟩ := (hp ▸ hs).of_append
    exact (h.group hs hg).left rfl
  · exact (h.declaration hs hd).left (List.mem_singleton.mp hm).symm

-- The names of a declaration are its own, and so is the qualified one up to what can be confused.
theorem Admissible.pairwise_qualified (h : Admissible Γ "" items) (hn : Named items) :
    (declarationsOf items).Pairwise fun a b =>
      fullName a ≠ fullName b ∧ (qualified "" a.1 a.2 = qualified "" b.1 b.2 →
        Item.Confusable items (fullName a) (fullName b) ∨
        Item.Confusable items (fullName b) (fullName a)) := by
  have hp := List.pairwise_map.mp h.nodup_fullNames
  refine hp.imp_of_mem fun {a b} ha hb hd => ⟨hd, fun hq => ?_⟩
  have hj : String.join (fullName a) = String.join (fullName b) := by
    simpa only [qualified, fullName, String.empty_append] using hq
  rcases Forks.of_join_eq (hn.not_mem_fullName ha) (hn.not_mem_fullName hb) hj hd with hf | hf
  · exact .inl <| h.confusable ha hb hf
  · exact .inr <| h.confusable hb ha hf

end Catalog

end Palette
