import Palette.Sheet.Parser
import Palette.FileSystem.Store

-- Color sheets from files.

namespace Palette

-- Why a file is no color sheet: it cannot be read as text, or the text is wrong.
inductive LoadError where
  | file (path : Path) (e : FileError)
  | parse (path : Path) (e : ParseError)
  deriving DecidableEq, Inhabited

-- The path, and what is wrong with the file or where the text in it goes wrong.
def LoadError.message : LoadError → String
  | .file path e => "failed to read " ++ path.text ++ ": " ++ e.message
  | .parse path e => path.text ++ ":" ++ e.message

namespace Sheet

-- The sheet that some bytes are the text of.
def ofBytes (path : Path) (bytes : ByteArray) : Except LoadError Sheet :=
  match String.fromUTF8? bytes with
  | none => .error (.file path .notUtf8)
  | some source => (parse source).mapError (.parse path)

-- Reads a sheet from a file.
def load {m : Type → Type} [Monad m] [FileStore m] (path : Path) : ExceptT LoadError m Sheet :=
  ExceptT.mk do
    match ← FileStore.readBytes path with
    | .error e => return .error (.file path e)
    | .ok bytes => return ofBytes path bytes

end Sheet

end Palette
