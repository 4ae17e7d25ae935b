import Palette.Proofs.Catalog.Admissible
import Palette.Proofs.Grammar.Exactness

-- Every name of a sheet that was read from a text is made of letters and digits, of at least one.

namespace Palette

namespace Catalog.Named

variable {i : Item} {items inner : List Item} {name : String} {d : Declaration}

theorem nil : Named [] where
  group hs hg := by
    cases hs with
    | here       => cases hg
    | inner hg _ => cases hg
  declaration hs hd := by
    cases hs with
    | here       => cases hd
    | inner hg _ => cases hg

theorem consDeclaration (h : Named items) (hd : d.name ≠ "" ∧ ∀ c ∈ d.name.toList, c.isAlphanum) :
    Named (.declaration d :: items) where
  group hs hg := by
    cases hs with
    | here         => exact h.group .here <| (List.mem_cons.mp hg).resolve_left nofun
    | inner hg' hs => exact h.group (.inner ((List.mem_cons.mp hg').resolve_left nofun) hs) hg
  declaration hs hd' := by
    cases hs with
    | here =>
      rcases List.mem_cons.mp hd' with hd' | hd'
      · cases hd'
        exact hd
      · exact h.declaration .here hd'
    | inner hg hs => exact h.declaration (.inner ((List.mem_cons.mp hg).resolve_left nofun) hs) hd'

theorem consGroup (h : Named items) (hi : Named inner)
    (hn : name ≠ "" ∧ ∀ c ∈ name.toList, c.isAlphanum) : Named (.group name inner :: items) where
  group hs hg := by
    cases hs with
    | here =>
      rcases List.mem_cons.mp hg with hg | hg
      · cases hg
        exact hn
      · exact h.group .here hg
    | inner hg' hs =>
      rcases List.mem_cons.mp hg' with hg' | hg'
      · cases hg'
        exact hi.group hs hg
      · exact h.group (.inner hg' hs) hg
  declaration hs hd := by
    cases hs with
    | here        => exact h.declaration .here <| (List.mem_cons.mp hd).resolve_left nofun
    | inner hg hs =>
      rcases List.mem_cons.mp hg with hg | hg
      · cases hg
        exact hi.declaration hs hd
      · exact h.declaration (.inner hg hs) hd

end Catalog.Named

namespace Grammar

open Catalog (Named)

theorem Name.alphanumeric {s rest : List Char} {n : String} (h : Name s n rest) :
    n ≠ "" ∧ ∀ c ∈ n.toList, c.isAlphanum := by
  obtain ⟨hn, hc⟩ := h
  exact ⟨by simpa [← String.toList_inj] using hn, by simpa using hc⟩

theorem Declaration.alphanumeric {s rest : List Char} {d : Palette.Declaration}
    (h : Declaration s d rest) : d.name ≠ "" ∧ ∀ c ∈ d.name.toList, c.isAlphanum := by
  obtain ⟨hn, _, _⟩ := h
  exact hn.alphanumeric

mutual

theorem Item.named {s rest : List Char} {i : Palette.Item} {items : List Palette.Item}
    (h : Item s i rest) (hi : Named items) : Named (i :: items) := by
  match h with
  | .declaration h   => exact hi.consDeclaration h.alphanumeric
  | .group hn _ _ h => exact hi.consGroup h.named hn.alphanumeric

theorem Items.named {s rest : List Char} {items : List Palette.Item} (h : Items s items rest) :
    Named items := by
  match h with
  | .nil         => exact .nil
  | .cons h _ hr => exact h.named hr.named

end

theorem TopItems.named {s : List Char} {items : List Palette.TopItem} (h : TopItems s items) :
    Named (Sheet.mk items).body := by
  induction h
  case nil => exact .nil
  case cons h _ _ ih =>
    cases h with
    | «variable» => exact ih
    | item h     => exact h.named ih

end Grammar

theorem Sheet.named_of_parse {source : String} {d : Sheet} (h : Sheet.parse source = .ok d) :
    Catalog.Named d.body := by
  have ⟨_, _, hi, _⟩ := Sheet.derives_iff.mp h
  exact hi.named

end Palette
