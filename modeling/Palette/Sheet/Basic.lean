import Palette.Number.Binary32

-- Color sheets: colors, references to variables, values that are the same in light and dark or differ,
-- and the groups that hold declarations. Nothing here is resolved; references stay symbolic.

namespace Palette

-- A color with straight alpha.
structure Color where
  red : UInt8
  green : UInt8
  blue : UInt8
  alpha : Binary32
  deriving DecidableEq, Inhabited

-- The color with its alpha multiplied by an opacity.
def Color.fade (c : Color) (opacity : Binary32) : Color :=
  { c with alpha := c.alpha * opacity }

-- A mention of a variable, with the opacity written beside it.
structure Reference where
  name : String
  opacity : Binary32
  deriving DecidableEq, Inhabited

-- What may be written where a single color is wanted.
inductive Slot where
  | color (c : Color)
  | reference (r : Reference)
  deriving DecidableEq, Inhabited

-- Something given once for both appearances, or once for light and once for dark.
inductive Themed (α : Type) where
  | plain (both : α)
  | lightDark (light dark : α)
  deriving DecidableEq, Inhabited

def Themed.map (f : α → β) : Themed α → Themed β
  | .plain both => .plain (f both)
  | .lightDark light dark => .lightDark (f light) (f dark)

-- The right-hand side of a declaration. A plain reference may stand for a light and dark pair.
abbrev Value := Themed Slot

structure Declaration where
  name : String
  value : Value
  deriving DecidableEq, Inhabited

-- A declaration, or a named group of items.
inductive Item where
  | declaration (d : Declaration)
  | group (name : String) (items : List Item)
  deriving Inhabited

-- What stands outside all groups: a variable or an item.
inductive TopItem where
  | variable (d : Declaration)
  | item (i : Item)
  deriving Inhabited

-- A color sheet, in the order of its text.
structure Sheet where
  items : List TopItem
  deriving Inhabited

-- Groups nest at most this deep.
def maxNesting : Nat := 64

namespace Sheet

-- The variables, in order and with repetitions.
def variableDeclarations (s : Sheet) : List Declaration :=
  s.items.filterMap fun
    | .variable d => some d
    | .item _ => none

-- Everything but the variables.
def body (s : Sheet) : List Item :=
  s.items.filterMap fun
    | .variable _ => none
    | .item i => some i

end Sheet

-- How many groups and declarations there are, variables left out.
structure Counts where
  groups : Nat := 0
  colors : Nat := 0
  deriving DecidableEq, Inhabited

namespace Counts

instance : Add Counts := ⟨fun a b => ⟨a.groups + b.groups, a.colors + b.colors⟩⟩

mutual

def ofItem : Item → Counts
  | .declaration _ => ⟨0, 1⟩
  | .group _ items => ⟨1, 0⟩ + ofItems items

def ofItems : List Item → Counts
  | [] => {}
  | i :: rest => ofItem i + ofItems rest

end

end Counts

def Sheet.counts (s : Sheet) : Counts := .ofItems s.body

end Palette
