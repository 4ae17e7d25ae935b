import Palette.FileSystem.Basic

-- The operations on files that commands are made of, for programs that run on a disk as well as on a
-- file system held in memory.

namespace Palette

class FileStore (m : Type → Type) where
  pathExists : Path → m Bool
  readBytes : Path → m (Except FileError ByteArray)
  writeBytes : Path → ByteArray → m (Except FileError Unit)
  createFolder : Path → m (Except FileError Unit)
  createFolders : Path → m (Except FileError Unit)
  removeFolder : Path → m (Except FileError Unit)

namespace FileSystem

-- An operation that changes files only if it succeeds.
def update (f : FileSystem → Except FileError FileSystem) : StateM FileSystem (Except FileError Unit) :=
  fun fs =>
    match f fs with
    | .ok fs' => (.ok (), fs')
    | .error e => (.error e, fs)

instance : FileStore (StateM FileSystem) where
  pathExists p fs := (fs.pathExists p, fs)
  readBytes p fs := (fs.readBytes p, fs)
  writeBytes p content := update (·.writeBytes p content)
  createFolder p := update (·.createFolder p)
  createFolders p fs := fs.createFolders p
  removeFolder p fs := fs.removeFolder p

end FileSystem

end Palette
