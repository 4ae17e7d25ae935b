import Palette.Proofs.Arrangement.Basic
import Palette.Proofs.Catalog.Success

-- The catalog of a sheet in another order: each item adds a folder of its own to the table that it is
-- written into, and folders of different names may be added in any order.

namespace Palette

namespace Catalog

open Item (Rearranged)
open Program

-- The folder that an item is the reason for, with its name.
inductive Entry (o : Options) (Γ : Context) (qualifier : String) : Item → String → Node → Prop
  | declaration : (colorFolderName (qualifier ++ d.name)).utf8ByteSize ≤ 255 →
    Γ.resolve d.value = .ok colors →
    Entry o Γ qualifier (.declaration d) (colorFolderName (qualifier ++ d.name))
      (.folder (described (colorContent o colors)))
  | group : name.utf8ByteSize ≤ 255 →
    Fills o Γ (qualifier ++ name) members (described (groupContent o)) u →
    Entry o Γ qualifier (.group name members) name (.folder u)

variable {o : Options} {Γ : Context} {qualifier : String} {items items' rest : List Item} {i j : Item}
variable {t t' : Table Node}

namespace Fills

theorem cons_iff :
    Fills o Γ qualifier (i :: rest) t t' ↔
      ∃ name node, t.find? name = none ∧ Entry o Γ qualifier i name node ∧
        Fills o Γ qualifier rest (t.insert name node) t' := by
  constructor
  case mp =>
    intro h
    cases h with
    | declaration hf hl hx hr => exact ⟨_, _, hf, .declaration hl hx, hr⟩
    | group hf hl hi hr       => exact ⟨_, _, hf, .group hl hi, hr⟩
  case mpr =>
    intro ⟨_, _, hf, ha, hr⟩
    cases ha with
    | declaration hl hx => exact .declaration hf hl hx hr
    | group hl hi       => exact .group hf hl hi hr

-- Each of the two names is free, whichever is taken first.
theorem swap (h : Fills o Γ qualifier (i :: j :: rest) t t') :
    Fills o Γ qualifier (j :: i :: rest) t t' := by
  have ⟨name, node, hf, ha, h⟩ := cons_iff.mp h
  have ⟨name', node', hf', ha', hr⟩ := cons_iff.mp h
  have ⟨hn, hf'⟩ := Table.find?_insert_eq_none.mp hf'
  rw [Table.insert_comm hn.symm] at hr
  have hf : (t.insert name' node').find? name = none :=
    Table.find?_insert_eq_none.mpr ⟨hn.symm, hf⟩
  exact cons_iff.mpr ⟨name', node', hf', ha', cons_iff.mpr ⟨name, node, hf, ha, hr⟩⟩

-- By induction on the rearrangement, the qualifier and the tables being those of any group.
theorem rearrange (h : Fills o Γ qualifier items t t') (hr : Rearranged items items') :
    Fills o Γ qualifier items' t t' := by
  induction hr generalizing qualifier t t'
  case nil  => exact h
  case cons ih =>
    have ⟨name, node, hf, ha, h⟩ := cons_iff.mp h
    exact cons_iff.mpr ⟨name, node, hf, ha, ih h⟩
  case group ih ih' =>
    cases h with
    | group hf hl hi h => exact .group hf hl (ih hi) (ih' h)
  case swap => exact h.swap
  case trans ih ih' => exact ih' <| ih h

end Fills

variable {sheet sheet' : Sheet} {fs fs' : FileSystem} {p : Path} {c : Counts}

-- The folder that the items are written into does not depend on them.
theorem write_rearrange (hr : sheet.Rearranged sheet') (hn : Named sheet.body)
    (h : outcome (write o Γ sheet p) fs = (.ok c, fs')) :
    outcome (write o Γ sheet' p) fs = (.ok c, fs') := by
  have ⟨cleared, created, fs₁, hcl, hcr, hd, hi⟩ := write_eq_ok.mp h
  have ⟨place, t, _, _, ha⟩ := at_of_writeDescriptor hd
  have hp := pathsFit_of_writeItems (fits_of_writeDescriptor hd) hi
  have ⟨u, hu, hfs, hc⟩ := (FillsFolder.of_named (by simp) hn hp _ _ _ _ ha).mp hi
  have hi' : outcome (writeItems o Γ p "" sheet'.body) fs₁ = (.ok c, fs') := by
    apply (FillsFolder.of_named (by simp) (hr.body.named hn) (hr.body.pathsFit hp) _ _ _ _ ha).mpr
    exact ⟨u, hu.rearrange hr.body, hfs, hr.body.counts ▸ hc⟩
  exact write_eq_ok.mpr ⟨cleared, created, fs₁, hcl, hcr, hd, hi'⟩

end Catalog

end Palette
