import Palette.Accessor.Source
import Palette.OutputError

-- Accessors on a file store. A file that already holds what would be written is left alone, so that
-- nothing that depends on its age is done over.

namespace Palette.Accessor

-- What became of the file.
inductive Written where
  | written
  | unchanged
  deriving DecidableEq, Inhabited

variable {m : Type → Type} [Monad m] [FileStore m]

open OutputError (attempt resolving)

-- Whether a file is there and holds exactly some bytes.
def holds (path : Path) (content : ByteArray) : ExceptT OutputError m Bool := do
  if ← (FileStore.pathExists path : m Bool) then
    let old ← attempt path (FileStore.readBytes path)
    return old == content
  else return false

-- Writes the accessors of a sheet to a file, even over the same content if that is forced.
def write (style : Style) (Γ : Context) (sheet : Sheet) (path : Path) (force : Bool) :
    ExceptT OutputError m Written := do
  let text ← resolving (render style sheet Γ)
  let same ← if force then pure false else holds path text.toUTF8
  if same then return .unchanged
  attempt path (FileStore.writeBytes path text.toUTF8)
  return .written

end Palette.Accessor
