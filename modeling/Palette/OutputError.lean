import Palette.Context
import Palette.FileSystem.Store

-- Why output was not made: a color did not resolve, or an operation on files failed at a path.

namespace Palette

inductive OutputError where
  | resolve (e : ResolveError)
  | file (path : Path) (e : FileError)
  deriving DecidableEq, Inhabited

namespace OutputError

-- A failed operation is told with its path, a color that did not resolve by itself.
def message : OutputError → String
  | .resolve e => e.message
  | .file path e => "I/O error at " ++ path.text ++ ": " ++ e.message

variable {m : Type → Type} [Monad m]

-- An operation on files whose failure is told together with a path.
def attempt (path : Path) (operation : m (Except FileError α)) : ExceptT OutputError m α :=
  ExceptT.mk do
    match ← operation with
    | .ok a => return .ok a
    | .error e => return .error (.file path e)

-- The outcome of resolving something on the way.
def resolving (r : Except ResolveError α) : ExceptT OutputError m α :=
  ExceptT.mk (pure (r.mapError .resolve))

end OutputError

end Palette
