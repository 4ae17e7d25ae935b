import Palette.Proofs.Catalog.Ambiguity
import Palette.Proofs.Grammar.Exactness
import Palette.Proofs.Number.UnitInterval
import Palette.Proofs.Resolution.Declarations

-- In a sheet that was read from a text all alphas and opacities are between zero and one. A zero may
-- have a minus sign if it is an alpha, which is written as a numeral, but none if it is an opacity.

namespace Palette

open Item (declarationsOf)

def Slot.InRange : Slot → Prop
  | .color c     => c.alpha.InUnitInterval
  | .reference r => r.opacity.InUnitInterval ∧ r.opacity.isNegative = false

def Value.InRange : Value → Prop
  | .plain s             => s.InRange
  | .lightDark light dark => light.InRange ∧ dark.InRange

-- A value of a variable, or of a declaration in whichever group.
inductive Sheet.Writes (sheet : Sheet) : Value → Prop
  | ofVariable    : d ∈ sheet.variableDeclarations → Writes sheet d.value
  | ofDeclaration : (path, d) ∈ declarationsOf sheet.body → Writes sheet d.value

namespace Grammar

variable {s rest : List Char} {x : Binary32} {c : Color} {slot : Palette.Slot} {v : Palette.Value}
variable {d : Palette.Declaration} {label : String}

theorem Opacity.inRange (h : Opacity s x rest) : x.InUnitInterval ∧ x.isNegative = false := by
  cases h with
  | full               => exact ⟨.one, rfl⟩
  | percent _ _ _ hn => exact ⟨.ofRatio (by decide) hn, Binary32.isNegative_ofUnits⟩

theorem Slot.inRange (h : Slot s slot rest) : slot.InRange := by
  cases h with
  | hexColor h     => cases h with | intro _ _ _ ho => exact ho.inRange.left
  | channelColor h => cases h with | intro _ _ _ _ _ _ _ ha _ => cases ha with | intro _ hi => exact hi
  | reference h    => cases h with | intro _ ho => exact ho.inRange

theorem Labelled.inRange (h : Labelled label s slot rest) : slot.InRange := by
  cases h with | intro _ _ hs => exact hs.inRange

theorem Value.inRange (h : Value s v rest) : v.InRange := by
  cases h with
  | plain h => exact h.inRange
  | pair h  =>
    cases h with
    | lightDark _ hl _ hd _ => exact ⟨hl.inRange, hd.inRange⟩
    | darkLight _ hd _ hl _ => exact ⟨hl.inRange, hd.inRange⟩

theorem Declaration.inRange (h : Declaration s d rest) : d.value.InRange := by
  cases h with | intro _ _ hv => exact hv.inRange

mutual

theorem Item.inRange {s rest : List Char} {i : Palette.Item} (h : Item s i rest)
    (place : List String × Palette.Declaration) (hp : place ∈ i.declarations) :
    place.2.value.InRange := by
  match h with
  | .declaration h =>
    cases List.mem_singleton.mp hp
    exact h.inRange
  | .group _ _ _ h =>
    obtain ⟨inner, hi, rfl⟩ := List.mem_map.mp hp
    exact h.inRange inner hi

theorem Items.inRange {s rest : List Char} {items : List Palette.Item} (h : Items s items rest)
    (place : List String × Palette.Declaration) (hp : place ∈ declarationsOf items) :
    place.2.value.InRange := by
  match h with
  | .nil         => cases hp
  | .cons h _ hr =>
    rcases List.mem_append.mp hp with hp | hp
    · exact h.inRange place hp
    · exact hr.inRange place hp

end

theorem TopItems.inRange {items : List Palette.TopItem} (h : TopItems s items)
    (hv : (Sheet.mk items).Writes v) : v.InRange := by
  induction h
  case nil => cases hv <;> contradiction
  case cons h _ _ ih =>
    cases h with
    | «variable» h =>
      cases hv with
      | ofVariable hd =>
        rcases List.mem_cons.mp hd with rfl | hd
        · exact h.inRange
        · exact ih <| .ofVariable hd
      | ofDeclaration hd => exact ih <| .ofDeclaration hd
    | item h =>
      cases hv with
      | ofVariable hd => exact ih <| .ofVariable hd
      | ofDeclaration hd =>
        rcases List.mem_append.mp hd with hd | hd
        · exact h.inRange _ hd
        · exact ih <| .ofDeclaration hd

end Grammar

variable {sheet : Sheet} {v : Value} {name : String}

theorem Sheet.inRange_of_parse {source : String} (h : Sheet.parse source = .ok sheet)
    (hv : sheet.Writes v) : v.InRange :=
  have ⟨_, _, hi, _⟩ := Sheet.derives_iff.mp h
  hi.inRange hv

theorem Sheet.writes_of_value? (h : (Context.ofSheet sheet).value? name = some v) :
    sheet.Writes v := by
  rw [Context.ofSheet_value?] at h
  obtain ⟨d, hd, rfl⟩ := Option.map_eq_some_iff.mp h
  exact .ofVariable <| List.mem_of_mem_filter <| List.mem_of_getLast? hd

end Palette
