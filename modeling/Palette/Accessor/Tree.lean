import Palette.Context

-- The tree of accessors of a sheet: its groups and colors without the variables, every color resolved
-- and the members of each group ordered by their short names. Members of the same name keep the order
-- of the sheet.

namespace Palette.Accessor

-- A color or a group of members. Qualified names run the names of all enclosing groups together.
inductive Member where
  | entry (name qualified : String) (colors : Resolved)
  | group (name qualified : String) (members : List Member)
  deriving Inhabited

def Member.name : Member → String
  | .entry name _ _ => name
  | .group name _ _ => name

-- The order of members within a group.
def sortMembers (members : List Member) : List Member :=
  members.mergeSort fun a b => decide (a.name ≤ b.name)

-- What encloses all accessors.
def rootName : String := "Custom"

variable (Γ : Context)

mutual

-- The member for an item within groups whose names run together to a qualifier.
def memberOf (qualifier : String) : Item → Except ResolveError Member
  | .declaration d => do
    let colors ← Γ.resolve d.value
    return .entry d.name (qualifier ++ d.name) colors
  | .group name items => do
    let members ← membersOf (qualifier ++ name) items
    return .group name (qualifier ++ name) (sortMembers members)

-- The members for some items, in the order of the items.
def membersOf (qualifier : String) : List Item → Except ResolveError (List Member)
  | [] => return []
  | i :: rest => do
    let member ← memberOf qualifier i
    let members ← membersOf qualifier rest
    return member :: members

end

-- The tree of a sheet, or the error of the first declaration in its text that does not resolve.
def tree (sheet : Sheet) : Except ResolveError Member := do
  let members ← membersOf Γ "" sheet.body
  return .group rootName "" (sortMembers members)

end Palette.Accessor
