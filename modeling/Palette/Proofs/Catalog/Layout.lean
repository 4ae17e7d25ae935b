import Palette.Catalog.Write

-- What a catalog looks like and when there can be one, said of the places in a sheet and not of the
-- steps that write it.

namespace Palette

namespace Item

-- The items of the group at a path of names that starts among some items. At the empty path these
-- are the items themselves.
inductive Scope : List Item → List String → List Item → Prop
  | here  : Scope items [] items
  | inner : .group name members ∈ items → Scope members path scope → Scope items (name :: path) scope

def groupNames (items : List Item) : List String :=
  items.filterMap fun
    | .group name _  => some name
    | .declaration _ => none

def declarationNames (items : List Item) : List String :=
  items.filterMap fun
    | .group _ _     => none
    | .declaration d => some d.name

end Item

def Node.content? : Node → Option ByteArray
  | .file content => some content
  | .folder _     => none

-- What stands at a place below a node, if there is anything: a folder, which has no content, or a
-- file.
def Node.contentAt (n : Node) (place : Place) : Option (Option ByteArray) :=
  (n.at? place).map Node.content?

namespace Path

-- The path of a name in a folder in a folder and so on.
def descend (p : Path) (names : List String) : Path :=
  names.foldl join p

def Fits (p : Path) : Prop :=
  p.text.utf8ByteSize < FileSystem.pathBytesLimit

instance (p : Path) : Decidable p.Fits :=
  inferInstanceAs <| Decidable (_ < _)

end Path

namespace Catalog

open Item (Scope)

variable (o : Options) (Γ : Context) (qualifier : String) (items : List Item)

-- The names of all enclosing groups and of a declaration, run together.
def qualified (path : List String) (d : Declaration) : String :=
  qualifier ++ String.join (path ++ [d.name])

def groupContent : ByteArray :=
  (groupDescriptor o.author).toSpacedJson.toUTF8

def colorContent (colors : Resolved) : ByteArray :=
  (descriptorOf o colors).toSpacedJson.toUTF8

-- What has to stand at which place below the root of a catalog.
inductive Holds : Place → Option ByteArray → Prop
  | group : Scope items path scope → Holds path none
  | groupDescriptor : Scope items path scope →
    Holds (path ++ [descriptorName]) (some (groupContent o))
  | color : Scope items path scope → .declaration d ∈ scope →
    Holds (path ++ [colorFolderName (qualified qualifier path d)]) none
  | colorDescriptor : Scope items path scope → .declaration d ∈ scope →
    Γ.resolve d.value = .ok colors →
    Holds (path ++ [colorFolderName (qualified qualifier path d), descriptorName])
      (some (colorContent o colors))

-- What it takes for a catalog to be written.
structure Admissible : Prop where
  resolves : Scope items path scope → .declaration d ∈ scope →
    ∃ colors, Γ.resolve d.value = .ok colors
  groups : Scope items path scope → (Item.groupNames scope).Nodup
  declarations : Scope items path scope → (Item.declarationNames scope).Nodup
  groupName : Scope items path scope → .group name members ∈ scope →
    name.utf8ByteSize ≤ 255
  colorName : Scope items path scope → .declaration d ∈ scope →
    (colorFolderName (qualified qualifier path d)).utf8ByteSize ≤ 255

-- The descriptors have the longest paths of a catalog.
structure PathsFit (p : Path) : Prop where
  group : Scope items path scope → (p.descend (path ++ [descriptorName])).Fits
  color : Scope items path scope → .declaration d ∈ scope →
    (p.descend (path ++ [colorFolderName (qualified qualifier path d), descriptorName])).Fits

-- All names of groups and declarations are made of letters and digits.
structure Named : Prop where
  group : Scope items path scope → .group name members ∈ scope →
    name ≠ "" ∧ ∀ c ∈ name.toList, c.isAlphanum
  declaration : Scope items path scope → .declaration d ∈ scope →
    d.name ≠ "" ∧ ∀ c ∈ d.name.toList, c.isAlphanum

-- The last name is that of the folder of a color.
def EndsInColor (path : Place) : Prop :=
  ∃ front name, path = front ++ [colorFolderName name]

-- A folder of a catalog is one that was not there before the catalog was written.
structure WrittenFolder (before after : FileSystem) (place path : Place) : Prop where
  folder : after.root.contentAt (place ++ path) = some none
  new    : before.root.contentAt (place ++ path) = none

end Catalog

end Palette
