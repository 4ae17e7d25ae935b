import Palette.Catalog.Descriptor
import Palette.OutputError

-- Asset catalogs on a file store. Groups become folders named after themselves, declarations become
-- folders named after their qualified name, which runs the names of all enclosing groups together with
-- their own; every folder holds a descriptor. A folder that was at the destination is replaced. The
-- first failure ends the run, and what was written before it stays.

namespace Palette.Catalog

-- What is stamped into descriptors.
structure Options where
  colorSpace : ColorSpace := .srgb
  author : String := "xcode"
  deriving DecidableEq, Inhabited

-- The file of a descriptor.
def descriptorName : String := "Contents.json"

-- The folder of a color within the folder of its group.
def colorFolderName (qualified : String) : String := qualified ++ ".colorset"

section

variable {m : Type → Type} [Monad m] [FileStore m]

open OutputError (attempt resolving)

def writeDescriptor (folder : Path) (descriptor : Data) : ExceptT OutputError m Unit :=
  attempt (folder.join descriptorName)
    (FileStore.writeBytes (folder.join descriptorName) descriptor.toSpacedJson.toUTF8)

variable (o : Options) (Γ : Context)

-- The descriptor of a declaration with the given colors.
def descriptorOf (colors : Resolved) : Data :=
  colorDescriptor o.author o.colorSpace.tag (colors.map Components.ofColor)

mutual

def writeItem (parent : Path) (qualifier : String) : Item → ExceptT OutputError m Counts
  | .declaration d => do
    let folder := parent.join (colorFolderName (qualifier ++ d.name))
    attempt folder (FileStore.createFolder folder)
    let colors ← resolving (Γ.resolve d.value)
    writeDescriptor folder (descriptorOf o colors)
    return ⟨0, 1⟩
  | .group name items => do
    let folder := parent.join name
    attempt folder (FileStore.createFolder folder)
    writeDescriptor folder (groupDescriptor o.author)
    let inner ← writeItems folder (qualifier ++ name) items
    return ⟨1, 0⟩ + inner

-- Writes items into the folder of their group, one after the other.
def writeItems (parent : Path) (qualifier : String) : List Item → ExceptT OutputError m Counts
  | [] => return {}
  | i :: rest => do
    let first ← writeItem parent qualifier i
    let others ← writeItems parent qualifier rest
    return first + others

end

-- Writes the catalog of a sheet, and counts its folders of groups and of colors.
def write (sheet : Sheet) (destination : Path) : ExceptT OutputError m Counts := do
  if ← (FileStore.pathExists destination : m Bool) then
    attempt destination (FileStore.removeFolder destination)
  attempt destination (FileStore.createFolders destination)
  writeDescriptor destination (groupDescriptor o.author)
  writeItems o Γ destination "" sheet.body

end

end Palette.Catalog
