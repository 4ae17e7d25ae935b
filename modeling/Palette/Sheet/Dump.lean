import Palette.Sheet.Basic
import Palette.Data.Json
import Palette.Data.Yaml

-- Color sheets as data. Items carry their kind, values the tag of what they are.

namespace Palette

namespace Data

def ofColor (c : Color) : Data :=
  .variant "color" [("red", .whole c.red.toNat), ("green", .whole c.green.toNat),
    ("blue", .whole c.blue.toNat), ("alpha", .number c.alpha)]

def ofSlot : Slot → Data
  | .color c => ofColor c
  | .reference r => .variant "variable" [("identifier", .text r.name), ("opacity", .number r.opacity)]

def ofValue : Value → Data
  | .plain slot => ofSlot slot
  | .lightDark light dark => .variant "color_set" [("light", ofSlot light), ("dark", ofSlot dark)]

def ofDeclaration (kind : String) (d : Declaration) : Data :=
  .record [("kind", .text kind), ("identifier", .text d.name), ("value", ofValue d.value)]

mutual

def ofItem : Item → Data
  | .declaration d => ofDeclaration "declaration" d
  | .group name items =>
    .record [("kind", .text "rule_set"), ("identifier", .text name), ("items", .list (ofItems items))]

def ofItems : List Item → List Data
  | [] => []
  | i :: rest => ofItem i :: ofItems rest

end

def ofTopItem : TopItem → Data
  | .variable d => ofDeclaration "variable" d
  | .item i => ofItem i

def ofSheet (s : Sheet) : Data := .record [("items", .list (s.items.map ofTopItem))]

end Data

end Palette
