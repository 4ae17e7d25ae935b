import Palette.Proofs.Catalog.Layout
import Palette.Proofs.FileSystem.Tree

-- How the table of a folder is filled with items one after the other, without any paths. Whether it
-- can be filled, and with what it is filled then, is said by the layout.

namespace Palette

namespace Node

variable {n : Node} {name : String} {place rest : Place} {t : Table Node} {content : ByteArray}
variable {k : Option ByteArray}

theorem contentAt_append :
    n.contentAt (place ++ rest) = (n.at? place).bind (·.contentAt rest) := by
  simp only [contentAt, at?_append, Option.map_bind, Function.comp_def]

theorem contentAt_file :
    (file content).contentAt rest = some k ↔ rest = [] ∧ k = some content := by
  cases rest <;> simp [contentAt, content?, eq_comm]

theorem contentAt_folder_cons :
    (folder t).contentAt (name :: rest) = some k ↔
      ∃ child, t.find? name = some child ∧ child.contentAt rest = some k := by
  simp [contentAt, at?_folder_cons, Option.bind_eq_some_iff]

end Node

namespace Catalog

open Item (Scope)

-- A folder with a descriptor alone.
def described (content : ByteArray) : Table Node :=
  .insert descriptorName (.file content) .empty

variable (o : Options) (Γ : Context)

inductive Fills : String → List Item → Table Node → Table Node → Prop
  | nil : Fills qualifier [] t t
  | declaration : t.find? (colorFolderName (qualifier ++ d.name)) = none →
    (colorFolderName (qualifier ++ d.name)).utf8ByteSize ≤ 255 →
    Γ.resolve d.value = .ok colors →
    Fills qualifier rest (t.insert (colorFolderName (qualifier ++ d.name))
      (.folder (described (colorContent o colors)))) t' →
    Fills qualifier (.declaration d :: rest) t t'
  | group : t.find? name = none → name.utf8ByteSize ≤ 255 →
    Fills (qualifier ++ name) items (described (groupContent o)) filled →
    Fills qualifier rest (t.insert name (.folder filled)) t' →
    Fills qualifier (.group name items :: rest) t t'

-- What a single item is the reason for, below its own name.
inductive HoldsBelow (qualifier : String) (items : List Item) :
    String → Place → Option ByteArray → Prop
  | color : .declaration d ∈ items →
    HoldsBelow qualifier items (colorFolderName (qualifier ++ d.name)) [] none
  | colorDescriptor : .declaration d ∈ items → Γ.resolve d.value = .ok colors →
    HoldsBelow qualifier items (colorFolderName (qualifier ++ d.name)) [descriptorName]
      (some (colorContent o colors))
  | group : .group name members ∈ items → Holds o Γ (qualifier ++ name) members rest k →
    HoldsBelow qualifier items name rest k

variable {o Γ} {qualifier name : String} {items scope : List Item} {path : List String}
variable {d : Declaration} {t t' u : Table Node}

theorem qualified_nil : qualified qualifier [] d = qualifier ++ d.name := by
  simp [qualified, String.join_cons]

theorem qualified_cons :
    qualified qualifier (name :: path) d = qualified (qualifier ++ name) path d := by
  simp [qualified, String.join_cons, String.append_assoc]

namespace Fills

theorem deterministic (h : Fills o Γ qualifier items t t') (h' : Fills o Γ qualifier items t u) :
    t' = u := by
  induction h generalizing u
  case nil => cases h'; rfl
  case declaration hx _ ih =>
    cases h' with
    | declaration _ _ hx' hr =>
      cases hx.symm.trans hx'
      exact ih hr
  case group ih ih' =>
    cases h' with
    | group _ _ hi hr =>
      cases ih hi
      exact ih' hr

-- All items have been filled in.

theorem declaration_of_mem (h : Fills o Γ qualifier items t t') (hd : .declaration d ∈ items) :
    ∃ colors, Γ.resolve d.value = .ok colors ∧
      (colorFolderName (qualifier ++ d.name)).utf8ByteSize ≤ 255 := by
  induction h
  case nil => cases hd
  case declaration hl hx _ ih =>
    rcases List.mem_cons.mp hd with hd | hd
    · cases hd
      exact ⟨_, hx, hl⟩
    · exact ih hd
  case group ih => exact ih <| (List.mem_cons.mp hd).resolve_left nofun

theorem group_of_mem {inner : List Item} (h : Fills o Γ qualifier items t t')
    (hg : .group name inner ∈ items) :
    name.utf8ByteSize ≤ 255 ∧
      ∃ u, Fills o Γ (qualifier ++ name) inner (described (groupContent o)) u := by
  induction h
  case nil => cases hg
  case declaration ih => exact ih <| (List.mem_cons.mp hg).resolve_left nofun
  case group hl hi _ _ ih =>
    rcases List.mem_cons.mp hg with hg | hg
    · cases hg
      exact ⟨hl, _, hi⟩
    · exact ih hg

-- Whatever is in the table in the end was there before or is one of the items.
theorem find?_eq_some {node : Node} (h : Fills o Γ qualifier items t t') :
    t'.find? name = some node ↔
      t.find? name = some node ∨
      (∃ d colors, .declaration d ∈ items ∧ Γ.resolve d.value = .ok colors ∧
        name = colorFolderName (qualifier ++ d.name) ∧
        node = .folder (described (colorContent o colors))) ∨
      ∃ inner u, .group name inner ∈ items ∧
        Fills o Γ (qualifier ++ name) inner (described (groupContent o)) u ∧ node = .folder u := by
  induction h
  case nil => simp
  case declaration hn _ hx _ ih =>
    rw [ih, Table.find?_insert_of_fresh hn]
    simp [hx, or_and_right, exists_or, or_assoc]
  case group qualifier other inner filled rest _ _ hn _ hi _ _ ih =>
    rw [ih, Table.find?_insert_of_fresh hn, or_assoc]
    constructor
    case mp =>
      rintro (h | ⟨rfl, rfl⟩ | h | ⟨inner', u, hg, h⟩)
      · exact .inl h
      · exact .inr <| .inr ⟨inner, filled, List.mem_cons_self, hi, rfl⟩
      · exact .inr <| .inl <| by simpa using h
      · exact .inr <| .inr ⟨inner', u, List.mem_cons_of_mem _ hg, h⟩
    case mpr =>
      rintro (h | h | ⟨inner', u, hg, hf, rfl⟩)
      · exact .inl h
      · exact .inr <| .inr <| .inl <| by simpa using h
      · rcases List.mem_cons.mp hg with hg | hg
        · cases hg
          exact .inr <| .inl ⟨rfl, congrArg _ <| hf.deterministic hi⟩
        · exact .inr <| .inr <| .inr ⟨inner', u, hg, hf, rfl⟩

theorem find?_declaration {colors : Resolved} (h : Fills o Γ qualifier items t t')
    (hd : .declaration d ∈ items) (hx : Γ.resolve d.value = .ok colors) :
    t'.find? (colorFolderName (qualifier ++ d.name)) =
      some (.folder (described (colorContent o colors))) :=
  h.find?_eq_some.mpr <| .inr <| .inl ⟨d, colors, hd, hx, rfl, rfl⟩

theorem find?_group {inner : List Item} (h : Fills o Γ qualifier items t t')
    (hg : .group name inner ∈ items)
    (hu : Fills o Γ (qualifier ++ name) inner (described (groupContent o)) u) :
    t'.find? name = some (.folder u) :=
  h.find?_eq_some.mpr <| .inr <| .inr ⟨inner, u, hg, hu, rfl⟩

theorem at_scope (h : Fills o Γ qualifier items t t') (hs : Scope items path scope) :
    ∃ u u', Fills o Γ (qualifier ++ String.join path) scope u u' := by
  induction hs generalizing qualifier t t'
  case here => exact ⟨t, t', by simpa using h⟩
  case inner hg _ ih =>
    have ⟨_, u, hi⟩ := h.group_of_mem hg
    simpa [String.join_cons, String.append_assoc] using ih hi

end Fills

namespace Holds

variable {place rest : Place} {k : Option ByteArray}

theorem inner {inner : List Item} (h : Holds o Γ (qualifier ++ name) inner place k)
    (hg : .group name inner ∈ items) : Holds o Γ qualifier items (name :: place) k := by
  cases h with
  | group hs              => exact .group (.inner hg hs)
  | groupDescriptor hs    => exact .groupDescriptor (.inner hg hs)
  | color hs hd           => exact qualified_cons ▸ .color (.inner hg hs) hd
  | colorDescriptor hs hd => exact qualified_cons ▸ .colorDescriptor (.inner hg hs) hd ‹_›

theorem nil_iff : Holds o Γ qualifier items [] k ↔ k = none := by
  constructor
  case mp =>
    generalize hp : [] = place
    intro h
    cases h <;> simp_all
  case mpr =>
    rintro rfl
    exact .group .here

end Holds

namespace HoldsBelow

variable {rest : Place} {k : Option ByteArray}

theorem holds (h : HoldsBelow o Γ qualifier items name rest k) :
    Holds o Γ qualifier items (name :: rest) k := by
  cases h with
  | color hd              => exact qualified_nil ▸ .color .here hd
  | colorDescriptor hd hx => exact qualified_nil ▸ .colorDescriptor .here hd hx
  | group hg h            => exact h.inner hg

-- A place of the layout lies below an item, unless it is that of the descriptor.
theorem of_holds (h : Holds o Γ qualifier items (name :: rest) k) :
    name = descriptorName ∧ rest = [] ∧ k = some (groupContent o) ∨
      HoldsBelow o Γ qualifier items name rest k := by
  generalize hp : name :: rest = place at h
  cases h with
  | group hs =>
    cases hs with
    | here        => cases hp
    | inner hg hs => cases hp; exact .inr <| .group hg (.group hs)
  | groupDescriptor hs =>
    cases hs with
    | here        => cases hp; exact .inl ⟨rfl, rfl, rfl⟩
    | inner hg hs => cases hp; exact .inr <| .group hg (.groupDescriptor hs)
  | color hs hd =>
    cases hs with
    | here =>
      rw [qualified_nil] at hp
      cases hp
      exact .inr <| .color hd
    | inner hg hs =>
      rw [qualified_cons] at hp
      cases hp
      exact .inr <| .group hg (.color hs hd)
  | colorDescriptor hs hd hx =>
    cases hs with
    | here =>
      rw [qualified_nil] at hp
      cases hp
      exact .inr <| .colorDescriptor hd hx
    | inner hg hs =>
      rw [qualified_cons] at hp
      cases hp
      exact .inr <| .group hg (.colorDescriptor hs hd hx)

end HoldsBelow

theorem Holds.cons_iff {rest : Place} {k : Option ByteArray} :
    Holds o Γ qualifier items (name :: rest) k ↔
      name = descriptorName ∧ rest = [] ∧ k = some (groupContent o) ∨
      HoldsBelow o Γ qualifier items name rest k := by
  constructor
  case mp => exact HoldsBelow.of_holds
  case mpr =>
    rintro (⟨rfl, rfl, rfl⟩ | h)
    · exact .groupDescriptor .here
    · exact h.holds

theorem described_find? {content : ByteArray} {node : Node} :
    (described content).find? name = some node ↔
      name = descriptorName ∧ node = .file content := by
  rw [described, Table.find?_insert, Table.find?_empty]
  split <;> simp_all [eq_comm]

theorem described_contentAt {content : ByteArray} {rest : Place} {k : Option ByteArray} :
    (Node.folder (described content)).contentAt rest = some k ↔
      rest = [] ∧ k = none ∨ rest = [descriptorName] ∧ k = some content := by
  cases rest
  case nil => simp [Node.contentAt, Node.content?, eq_comm]
  case cons =>
    simp only [Node.contentAt_folder_cons, described_find?, reduceCtorEq, false_and, false_or,
      List.cons.injEq]
    constructor
    · rintro ⟨_, ⟨rfl, rfl⟩, h⟩
      have ⟨hr, hk⟩ := Node.contentAt_file.mp h
      exact ⟨⟨rfl, hr⟩, hk⟩
    · rintro ⟨⟨rfl, hr⟩, hk⟩
      exact ⟨_, ⟨rfl, rfl⟩, Node.contentAt_file.mpr ⟨hr, hk⟩⟩

namespace Fills

variable {rest : Place} {k : Option ByteArray}

-- Below a name there is what was there before or what belongs to an item of that name, given that
-- the groups are filled rightly.
theorem contentAt_cons_of (h : Fills o Γ qualifier items t t')
    (hi : ∀ inner u, Fills o Γ (qualifier ++ name) inner (described (groupContent o)) u →
      ((Node.folder u).contentAt rest = some k ↔ Holds o Γ (qualifier ++ name) inner rest k)) :
    (Node.folder t').contentAt (name :: rest) = some k ↔
      (Node.folder t).contentAt (name :: rest) = some k ∨
      HoldsBelow o Γ qualifier items name rest k := by
  rw [Node.contentAt_folder_cons, Node.contentAt_folder_cons]
  constructor
  case mp =>
    rintro ⟨child, hc, hk⟩
    rcases h.find?_eq_some.mp hc with hc | ⟨d, colors, hd, hx, rfl, rfl⟩ | ⟨inner, u, hg, hu, rfl⟩
    · exact .inl ⟨child, hc, hk⟩
    · rcases described_contentAt.mp hk with ⟨rfl, rfl⟩ | ⟨rfl, rfl⟩
      · exact .inr <| .color hd
      · exact .inr <| .colorDescriptor hd hx
    · exact .inr <| .group hg ((hi inner u hu).mp hk)
  case mpr =>
    rintro (⟨child, hc, hk⟩ | hb)
    · exact ⟨child, h.find?_eq_some.mpr <| .inl hc, hk⟩
    · cases hb with
      | color hd =>
        have ⟨_, hx, _⟩ := h.declaration_of_mem hd
        exact ⟨_, h.find?_declaration hd hx, described_contentAt.mpr <| .inl ⟨rfl, rfl⟩⟩
      | colorDescriptor hd hx =>
        exact ⟨_, h.find?_declaration hd hx, described_contentAt.mpr <| .inr ⟨rfl, rfl⟩⟩
      | group hg hr =>
        have ⟨_, u, hu⟩ := h.group_of_mem hg
        exact ⟨_, h.find?_group hg hu, (hi _ u hu).mpr hr⟩

-- What has been filled holds exactly what the layout says. By induction on the place, whose first
-- name is that of the descriptor, of a color or of a group.
theorem holds {place : Place} (h : Fills o Γ qualifier items (described (groupContent o)) t) :
    (Node.folder t).contentAt place = some k ↔ Holds o Γ qualifier items place k := by
  induction place generalizing qualifier items t
  case nil =>
    rw [Holds.nil_iff]
    simp [Node.contentAt, Node.content?, eq_comm]
  case cons name rest ih =>
    rw [h.contentAt_cons_of fun _ _ hu => ih hu, Holds.cons_iff, described_contentAt]
    simp [and_assoc]

-- Below a name that was free there is what the layout says, and below any other one what was there.

theorem contentAt_of_free (h : Fills o Γ qualifier items t t') (hf : t.find? name = none)
    (hn : name ≠ descriptorName) :
    (Node.folder t').contentAt (name :: rest) = some k ↔
      Holds o Γ qualifier items (name :: rest) k := by
  rw [h.contentAt_cons_of fun _ _ hu => hu.holds, Holds.cons_iff, Node.contentAt_folder_cons]
  simp [hf, hn]

theorem contentAt_of_taken {node : Node} (h : Fills o Γ qualifier items t t')
    (hf : t.find? name = some node) :
    (Node.folder t').contentAt (name :: rest) = (Node.folder t).contentAt (name :: rest) := by
  have hf' := h.find?_eq_some.mpr <| .inl hf
  simp [Node.contentAt, Node.at?_folder_cons, hf, hf']

end Fills

end Catalog

end Palette
