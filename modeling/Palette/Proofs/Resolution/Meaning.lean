import Mathlib.Logic.Relation
import Palette.Context

-- What references, slots and values mean, without any order of following and without a trail.

namespace Palette

inductive Slot.Mentions : Slot → String → Prop
  | reference : Mentions (.reference r) r.name

inductive Value.Mentions : Value → String → Prop
  | plain : Slot.Mentions s name → Mentions (.plain s) name
  | light : Slot.Mentions l name → Mentions (.lightDark l d) name
  | dark  : Slot.Mentions d name → Mentions (.lightDark l d) name

-- The value is a pair, and one of its slots mentions the name.
inductive Value.InSlot : Value → String → Prop
  | light : Slot.Mentions l name → InSlot (.lightDark l d) name
  | dark  : Slot.Mentions d name → InSlot (.lightDark l d) name

namespace Context

variable (Γ : Context)

-- What one name is declared as mentions the other one.
def Refers (name other : String) : Prop :=
  ∃ v, Γ.value? name = some v ∧ v.Mentions other

-- There are names, and each of them leads back to itself.
def Cyclic (path : List String) : Prop :=
  path ≠ [] ∧ ∀ name ∈ path, Relation.TransGen Γ.Refers name name

mutual

-- A reference yields what its name is declared as, faded once that is settled.
inductive ReferenceYields : Reference → Resolved → Prop
  | intro : Γ.value? r.name = some v → ValueYields v x →
    ReferenceYields r (x.map (·.fade r.opacity))

-- A slot yields a single color.
inductive SlotYields : Slot → Color → Prop
  | color     : SlotYields (.color c) c
  | reference : ReferenceYields r (.plain c) → SlotYields (.reference r) c

inductive ValueYields : Value → Resolved → Prop
  | color     : ValueYields (.plain (.color c)) (.plain c)
  | reference : ReferenceYields r x → ValueYields (.plain (.reference r)) x
  | lightDark : SlotYields l a → SlotYields d b → ValueYields (.lightDark l d) (.lightDark a b)

end

-- From reference to reference up to a value that is none, with the opacities that are met on the
-- way. The one that is met last comes first.
inductive Chain : Reference → List Binary32 → Value → Prop
  | last : Γ.value? r.name = some v → (∀ s, v ≠ .plain (.reference s)) → Chain r [r.opacity] v
  | next : Γ.value? r.name = some (.plain (.reference s)) → Chain s opacities v →
    Chain r (opacities ++ [r.opacity]) v

end Context

-- The color with its alpha multiplied by one opacity after the other.
def Color.fadeAll (c : Color) (opacities : List Binary32) : Color :=
  { c with alpha := opacities.foldl (· * ·) c.alpha }

end Palette
