import Palette.Proofs.Catalog.Writing

-- Sheets with the same things in them in another order, and what that leaves as it is.

namespace Palette

namespace Item

-- The same items in another order, and the same for the members of every group among them.
inductive Rearranged : List Item → List Item → Prop
  | nil   : Rearranged [] []
  | cons  : Rearranged rest rest' → Rearranged (i :: rest) (i :: rest')
  | group : Rearranged members members' → Rearranged rest rest' →
    Rearranged (.group name members :: rest) (.group name members' :: rest')
  | swap  : Rearranged (i :: j :: rest) (j :: i :: rest)
  | trans : Rearranged items middle → Rearranged middle items' → Rearranged items items'

def shortName : Item → String
  | .declaration d => d.name
  | .group name _  => name

-- No two siblings share a name, neither among the items nor in any group below them.
def Distinct (items : List Item) : Prop :=
  ∀ path scope, Scope items path scope → (scope.map shortName).Nodup

end Item

-- The same for what stands outside all groups.
inductive TopItem.Rearranged : List TopItem → List TopItem → Prop
  | nil   : Rearranged [] []
  | cons  : Rearranged rest rest' → Rearranged (i :: rest) (i :: rest')
  | group : Item.Rearranged members members' → Rearranged rest rest' →
    Rearranged (.item (.group name members) :: rest) (.item (.group name members') :: rest')
  | swap  : Rearranged (i :: j :: rest) (j :: i :: rest)
  | trans : Rearranged items middle → Rearranged middle items' → Rearranged items items'

-- A sheet in another order. Variables of the same name keep the order that they have among each other.
structure Sheet.Rearranged (d d' : Sheet) : Prop where
  items : TopItem.Rearranged d.items d'.items
  order : ∀ name, d.variableDeclarations.filter (·.name = name) =
    d'.variableDeclarations.filter (·.name = name)

variable {items items' rest scope inner : List Item} {tops tops' : List TopItem} {i : Item}
variable {path : List String} {d : Declaration} {name qualifier : String} {sheet sheet' : Sheet}

theorem Counts.add_left_comm {a b c : Counts} : a + (b + c) = b + (a + c) := by
  cases a; cases b; cases c
  simp only [HAdd.hAdd, Add.add, Counts.mk.injEq]
  constructor <;> exact Nat.add_left_comm ..

namespace Item.Rearranged

theorem of_perm (h : items.Perm items') : Rearranged items items' := by
  induction h
  case nil          => exact .nil
  case cons ih      => exact .cons ih
  case swap         => exact .swap
  case trans ih ih' => exact .trans ih ih'

theorem refl : Rearranged items items :=
  of_perm (.refl _)

theorem symm (h : Rearranged items items') : Rearranged items' items := by
  induction h
  case nil          => exact .nil
  case cons ih      => exact .cons ih
  case group ih ih' => exact .group ih ih'
  case swap         => exact .swap
  case trans ih ih' => exact .trans ih' ih

-- The declarations among the items stay the same ones, and the groups have rearranged members.

theorem declaration_mem (h : Rearranged items items') (hd : .declaration d ∈ items) :
    .declaration d ∈ items' := by
  induction h <;> grind

theorem group_mem (h : Rearranged items items') (hg : .group name inner ∈ items) :
    ∃ inner', .group name inner' ∈ items' ∧ Rearranged inner inner' := by
  induction h generalizing inner
  case nil => cases hg
  case cons ih =>
    rcases List.mem_cons.mp hg with rfl | hg
    · exact ⟨inner, List.mem_cons_self, refl⟩
    · have ⟨inner', hg', hi⟩ := ih hg
      exact ⟨inner', List.mem_cons_of_mem _ hg', hi⟩
  case group hi _ _ ih =>
    rcases List.mem_cons.mp hg with hg | hg
    · cases hg
      exact ⟨_, List.mem_cons_self, hi⟩
    · have ⟨inner', hg', hi⟩ := ih hg
      exact ⟨inner', List.mem_cons_of_mem _ hg', hi⟩
  case swap => exact ⟨inner, by grind, refl⟩
  case trans ih ih' =>
    have ⟨middle, hm, hi⟩ := ih hg
    have ⟨inner', hg', hi'⟩ := ih' hm
    exact ⟨inner', hg', hi.trans hi'⟩

-- By induction on the path, group by group.
theorem at_scope (h : Rearranged items items') (hs : Scope items path scope) :
    ∃ scope', Scope items' path scope' ∧ Rearranged scope scope' := by
  induction hs generalizing items'
  case here => exact ⟨items', .here, h⟩
  case inner hg _ ih =>
    have ⟨inner', hg', hi⟩ := h.group_mem hg
    have ⟨scope', hs', hr⟩ := ih hi
    exact ⟨scope', .inner hg' hs', hr⟩

theorem names (h : Rearranged items items') :
    (items.map Item.shortName).Perm (items'.map Item.shortName) := by
  induction h
  case nil          => exact .nil
  case cons ih      => exact ih.cons _
  case group ih     => exact ih.cons _
  case swap         => exact .swap ..
  case trans ih ih' => exact ih.trans ih'

theorem counts (h : Rearranged items items') : Counts.ofItems items = Counts.ofItems items' := by
  induction h
  case nil          => rfl
  case cons ih      => rw [Counts.ofItems, Counts.ofItems, ih]
  case group ih ih' => simp only [Counts.ofItems, Counts.ofItem, ih, ih']
  case swap         => simp only [Counts.ofItems, Counts.add_left_comm]
  case trans ih ih' => exact ih.trans ih'

theorem distinct (h : Rearranged items items') (hd : Distinct items) : Distinct items' := by
  intro path scope' hs
  have ⟨scope, hs, hr⟩ := h.symm.at_scope hs
  exact hr.names.nodup_iff.mpr <| hd path scope hs

theorem named (h : Rearranged items items') (hn : Catalog.Named items) : Catalog.Named items' where
  group hs hg :=
    have ⟨_, hs, hr⟩ := h.symm.at_scope hs
    have ⟨_, hg, _⟩ := hr.group_mem hg
    hn.group hs hg
  declaration hs hd :=
    have ⟨_, hs, hr⟩ := h.symm.at_scope hs
    hn.declaration hs (hr.declaration_mem hd)

theorem pathsFit {p : Path} (h : Rearranged items items') (hp : Catalog.PathsFit qualifier items p) :
    Catalog.PathsFit qualifier items' p where
  group hs :=
    have ⟨_, hs, _⟩ := h.symm.at_scope hs
    hp.group hs
  color hs hd :=
    have ⟨_, hs, hr⟩ := h.symm.at_scope hs
    hp.color hs (hr.declaration_mem hd)

end Item.Rearranged

namespace Item.Distinct

theorem of_members (hn : (items.map Item.shortName).Nodup)
    (hi : ∀ name inner, .group name inner ∈ items → Distinct inner) : Distinct items := by
  intro path scope hs
  cases hs with
  | here        => exact hn
  | inner hg hs => exact hi _ _ hg _ _ hs

theorem tail (h : Distinct (i :: rest)) : Distinct rest := by
  intro path scope hs
  have ⟨scope', hs', hl⟩ := hs.cons (i := i)
  exact (h path scope' hs').sublist <| hl.map _

theorem of_mem (h : Distinct items) (hg : .group name inner ∈ items) : Distinct inner :=
  fun path scope hs => h (name :: path) scope (.inner hg hs)

end Item.Distinct

namespace TopItem.Rearranged

theorem of_perm (h : tops.Perm tops') : Rearranged tops tops' := by
  induction h
  case nil          => exact .nil
  case cons ih      => exact .cons ih
  case swap         => exact .swap
  case trans ih ih' => exact .trans ih ih'

theorem symm (h : Rearranged tops tops') : Rearranged tops' tops := by
  induction h
  case nil           => exact .nil
  case cons ih       => exact .cons ih
  case group hi _ ih => exact .group hi.symm ih
  case swap          => exact .swap
  case trans ih ih'  => exact .trans ih' ih

-- To move a variable is not to move any item.
theorem body (h : Rearranged tops tops') :
    Item.Rearranged (Sheet.mk tops).body (Sheet.mk tops').body := by
  induction h
  case nil           => exact .nil
  case group hi _ ih => exact .group hi ih
  case trans ih ih'  => exact .trans ih ih'
  case cons i _ ih   =>
    cases i with
    | «variable» => exact ih
    | item       => exact .cons ih
  case swap i j _    =>
    cases i <;> cases j
    case item.item => exact .swap
    all_goals exact .refl

end TopItem.Rearranged

namespace Sheet.Rearranged

theorem symm (h : sheet.Rearranged sheet') : sheet'.Rearranged sheet where
  items := h.items.symm
  order name := (h.order name).symm

theorem body (h : sheet.Rearranged sheet') : Item.Rearranged sheet.body sheet'.body :=
  h.items.body

end Sheet.Rearranged

end Palette
