import Palette.Proofs.Catalog.Filling

-- A folder can be filled with items exactly if they are admissible. Names of groups have no dots in
-- them, so that they clash neither with colors nor with descriptors.

namespace Palette

namespace Item

variable {items scope : List Item} {path : List String} {i : Item} {name : String}
variable {inner : List Item} {d : Declaration}

theorem mem_groupNames : name ∈ groupNames items ↔ ∃ inner, .group name inner ∈ items := by
  simp only [groupNames, List.mem_filterMap]
  constructor
  · rintro ⟨_ | _, hi, hn⟩ <;> cases hn
    exact ⟨_, hi⟩
  · rintro ⟨inner, hi⟩
    exact ⟨_, hi, rfl⟩

theorem mem_declarationNames :
    name ∈ declarationNames items ↔ ∃ d, .declaration d ∈ items ∧ d.name = name := by
  simp only [declarationNames, List.mem_filterMap]
  constructor
  · rintro ⟨_ | _, hi, hn⟩ <;> cases hn
    exact ⟨_, hi, rfl⟩
  · rintro ⟨d, hi, rfl⟩
    exact ⟨_, hi, rfl⟩

-- With one more item in front, there may be one more item at the empty path.
theorem Scope.cons (h : Scope items path scope) :
    ∃ scope', Scope (i :: items) path scope' ∧ scope.Sublist scope' := by
  cases h with
  | here        => exact ⟨_, .here, List.sublist_cons_self ..⟩
  | inner hg hs => exact ⟨_, .inner (List.mem_cons_of_mem _ hg) hs, .refl _⟩

end Item

namespace Catalog

open Item (Scope)

variable {o : Options} {Γ : Context} {qualifier name : String} {items scope inner : List Item}
variable {path : List String} {d : Declaration} {t t' u : Table Node}

theorem dot_mem_colorFolderName : '.' ∈ (colorFolderName name).toList := by
  simp [colorFolderName]

theorem colorFolderName_ne_descriptorName : colorFolderName name ≠ descriptorName := by
  intro h
  have h := congrArg (fun s => s.toList.getLast?) h
  simp [colorFolderName, descriptorName] at h

theorem colorFolderName_inj {a b : String} :
    colorFolderName (qualifier ++ a) = colorFolderName (qualifier ++ b) ↔ a = b := by
  simp [colorFolderName, ← String.toList_inj]

-- A name without dots.
theorem ne_colorFolderName {other : String} (h : ∀ c ∈ name.toList, c.isAlphanum) :
    name ≠ colorFolderName other := by
  rintro rfl
  cases h '.' dot_mem_colorFolderName

theorem ne_descriptorName (h : ∀ c ∈ name.toList, c.isAlphanum) : name ≠ descriptorName := by
  rintro rfl
  cases h '.' (by decide)

theorem qualified_eq :
    qualified qualifier path d = qualifier ++ String.join path ++ d.name := by
  simp [qualified, String.join_append, String.join_cons, String.append_assoc]

-- The names of all folders that the items are to get can still be given.
structure Vacant (qualifier : String) (items : List Item) (t : Table Node) : Prop where
  group : ∀ name ∈ Item.groupNames items, t.find? name = none
  declaration : ∀ name ∈ Item.declarationNames items,
    t.find? (colorFolderName (qualifier ++ name)) = none

namespace Fills

-- No name was there before, and none of them comes twice.
theorem vacant (h : Fills o Γ qualifier items t t') :
    Vacant qualifier items t ∧ (Item.groupNames items).Nodup ∧
    (Item.declarationNames items).Nodup := by
  induction h
  case nil => exact ⟨⟨nofun, nofun⟩, .nil, .nil⟩
  case declaration hn _ _ _ ih =>
    have ⟨⟨hg, hd⟩, hg', hd'⟩ := ih
    simp only [Table.find?_insert_eq_none] at hg hd
    refine ⟨⟨fun name hm => (hg name hm).right, ?_⟩, hg', ?_⟩
    case refine_1 => exact List.forall_mem_cons.mpr ⟨hn, fun name hm => (hd name hm).right⟩
    case refine_2 => exact List.nodup_cons.mpr ⟨fun hm => (hd _ hm).left rfl, hd'⟩
  case group hn _ _ _ _ ih =>
    have ⟨⟨hg, hd⟩, hg', hd'⟩ := ih
    simp only [Table.find?_insert_eq_none] at hg hd
    refine ⟨⟨?_, fun name hm => (hd name hm).right⟩, ?_, hd'⟩
    case refine_1 => exact List.forall_mem_cons.mpr ⟨hn, fun name hm => (hg name hm).right⟩
    case refine_2 => exact List.nodup_cons.mpr ⟨fun hm => (hg _ hm).left rfl, hg'⟩

theorem free_of_holds {rest : Place} (h : Fills o Γ qualifier items t t')
    (hh : Holds o Γ qualifier items (name :: rest) none) : t.find? name = none := by
  have ⟨hv, _⟩ := h.vacant
  rcases HoldsBelow.of_holds hh with ⟨_, _, hk⟩ | hb
  · cases hk
  · cases hb with
    | color hm   => exact hv.declaration _ <| Item.mem_declarationNames.mpr ⟨_, hm, rfl⟩
    | group hm _ => exact hv.group _ <| Item.mem_groupNames.mpr ⟨_, hm⟩

theorem admissible (h : Fills o Γ qualifier items t t') : Admissible Γ qualifier items where
  resolves hs hd :=
    have ⟨_, _, hu⟩ := h.at_scope hs
    have ⟨colors, hx, _⟩ := hu.declaration_of_mem hd
    ⟨colors, hx⟩
  groups hs :=
    have ⟨_, _, hu⟩ := h.at_scope hs
    hu.vacant.right.left
  declarations hs :=
    have ⟨_, _, hu⟩ := h.at_scope hs
    hu.vacant.right.right
  groupName hs hg :=
    have ⟨_, _, hu⟩ := h.at_scope hs
    (hu.group_of_mem hg).left
  colorName hs hd :=
    have ⟨_, _, hu⟩ := h.at_scope hs
    have ⟨_, _, hl⟩ := hu.declaration_of_mem hd
    qualified_eq ▸ hl

end Fills

namespace Admissible

theorem tail {i : Item} (h : Admissible Γ qualifier (i :: items)) :
    Admissible Γ qualifier items where
  resolves hs hd :=
    have ⟨_, hs', hl⟩ := hs.cons
    h.resolves hs' (hl.mem hd)
  groups hs :=
    have ⟨_, hs', hl⟩ := hs.cons
    (h.groups hs').sublist (hl.filterMap _)
  declarations hs :=
    have ⟨_, hs', hl⟩ := hs.cons
    (h.declarations hs').sublist (hl.filterMap _)
  groupName hs hg :=
    have ⟨_, hs', hl⟩ := hs.cons
    h.groupName hs' (hl.mem hg)
  colorName hs hd :=
    have ⟨_, hs', hl⟩ := hs.cons
    h.colorName hs' (hl.mem hd)

theorem of_mem (h : Admissible Γ qualifier items) (hg : .group name inner ∈ items) :
    Admissible Γ (qualifier ++ name) inner where
  resolves hs := h.resolves (.inner hg hs)
  groups hs := h.groups (.inner hg hs)
  declarations hs := h.declarations (.inner hg hs)
  groupName hs := h.groupName (.inner hg hs)
  colorName hs hd := qualified_cons ▸ h.colorName (.inner hg hs) hd

end Admissible

namespace Named

theorem tail {i : Item} (h : Named (i :: items)) : Named items where
  group hs hg :=
    have ⟨_, hs', hl⟩ := hs.cons
    h.group hs' (hl.mem hg)
  declaration hs hd :=
    have ⟨_, hs', hl⟩ := hs.cons
    h.declaration hs' (hl.mem hd)

theorem of_mem (h : Named items) (hg : .group name inner ∈ items) : Named inner where
  group hs := h.group (.inner hg hs)
  declaration hs := h.declaration (.inner hg hs)

theorem groupName (h : Named items) (hm : name ∈ Item.groupNames items) :
    ∀ c ∈ name.toList, c.isAlphanum :=
  have ⟨_, hi⟩ := Item.mem_groupNames.mp hm
  (h.group .here hi).right

end Named

theorem described_free {content : ByteArray} (h : name ≠ descriptorName) :
    (described content).find? name = none := by
  rw [described, Table.find?_insert_of_ne h, Table.find?_empty]

namespace Vacant

variable {rest : List Item}

theorem described (content : ByteArray) (hn : Named items) :
    Vacant qualifier items (described content) where
  group _ hm       := described_free <| ne_descriptorName <| hn.groupName hm
  declaration _ _  := described_free colorFolderName_ne_descriptorName

-- Names that come later are other names than the one that is given: two names of groups or of
-- declarations differ, and a name of a group has no dot, as the name of every other folder has.

theorem fill_declaration (node : Node) (h : Vacant qualifier (.declaration d :: rest) t)
    (hd : (Item.declarationNames (.declaration d :: rest)).Nodup) (hn : Named rest) :
    Vacant qualifier rest (t.insert (colorFolderName (qualifier ++ d.name)) node) where
  group name hm :=
    Table.find?_insert_eq_none.mpr ⟨ne_colorFolderName <| hn.groupName hm, h.group name hm⟩
  declaration name hm := by
    have hf := (List.forall_mem_cons.mp h.declaration).right name hm
    refine Table.find?_insert_eq_none.mpr ⟨fun he => ?_, hf⟩
    exact (List.nodup_cons.mp hd).left <| colorFolderName_inj.mp he ▸ hm

theorem fill_group (node : Node) (h : Vacant qualifier (.group name inner :: rest) t)
    (hd : (Item.groupNames (.group name inner :: rest)).Nodup)
    (hc : ∀ c ∈ name.toList, c.isAlphanum) : Vacant qualifier rest (t.insert name node) where
  group other hm := by
    have hf := (List.forall_mem_cons.mp h.group).right other hm
    refine Table.find?_insert_eq_none.mpr ⟨fun he => ?_, hf⟩
    exact (List.nodup_cons.mp hd).left <| he ▸ hm
  declaration other hm :=
    Table.find?_insert_eq_none.mpr ⟨(ne_colorFolderName hc).symm, h.declaration other hm⟩

end Vacant

-- By recursion over the items, whose names stay vacant until it is their turn.
theorem Fills.exists {qualifier : String} {items : List Item} {t : Table Node}
    (ha : Admissible Γ qualifier items) (hn : Named items) (hv : Vacant qualifier items t) :
    ∃ t', Fills o Γ qualifier items t t' := by
  match items with
  | [] => exact ⟨t, .nil⟩
  | .declaration d :: rest =>
    have ⟨colors, hx⟩ := ha.resolves .here List.mem_cons_self
    have hl := ha.colorName .here List.mem_cons_self
    rw [qualified_nil] at hl
    have hv' := hv.fill_declaration (.folder (described (colorContent o colors)))
      (ha.declarations .here) hn.tail
    have ⟨t', ht⟩ := Fills.exists ha.tail hn.tail hv'
    exact ⟨t', .declaration (hv.declaration _ List.mem_cons_self) hl hx ht⟩
  | .group name inner :: rest =>
    have hl := ha.groupName .here List.mem_cons_self
    have hc := (hn.group .here List.mem_cons_self).right
    have hn' := hn.of_mem List.mem_cons_self
    have ⟨u, hu⟩ := Fills.exists (ha.of_mem List.mem_cons_self) hn' (.described (groupContent o) hn')
    have hv' := hv.fill_group (.folder u) (ha.groups .here) hc
    have ⟨t', ht⟩ := Fills.exists ha.tail hn.tail hv'
    exact ⟨t', .group (hv.group name List.mem_cons_self) hl hu ht⟩

theorem admissible_iff (hn : Named items) :
    Admissible Γ qualifier items ↔
      ∃ t, Fills o Γ qualifier items (described (groupContent o)) t := by
  constructor
  case mp  => exact fun ha => Fills.exists ha hn (.described _ hn)
  case mpr => exact fun ⟨_, h⟩ => h.admissible

end Catalog

end Palette
