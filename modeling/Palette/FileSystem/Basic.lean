import Palette.FileSystem.Path
import Palette.Table

-- File systems as trees: files with their bytes, and folders with a table of their entries.
-- Paths are walked from the root, which is also the working folder.

namespace Palette

-- Why an operation on files failed.
inductive FileError where
  | notFound
  | busy
  | alreadyExists
  | notAFolder
  | isAFolder
  | invalidArgument
  | nameTooLong
  | folderNotEmpty
  | nulInPath
  | notUtf8
  | other (description : String)
  deriving DecidableEq, Inhabited

-- What the system says of an error, with the number that the error has there.
def FileError.message : FileError → String
  | .notFound => "No such file or directory (os error 2)"
  | .busy => "Device or resource busy (os error 16)"
  | .alreadyExists => "File exists (os error 17)"
  | .notAFolder => "Not a directory (os error 20)"
  | .isAFolder => "Is a directory (os error 21)"
  | .invalidArgument => "Invalid argument (os error 22)"
  | .nameTooLong => "File name too long (os error 36)"
  | .folderNotEmpty => "Directory not empty (os error 39)"
  | .nulInPath => "file name contained an unexpected NUL byte"
  | .notUtf8 => "stream did not contain valid UTF-8"
  | .other description => description

-- A file with its bytes, or a folder with its entries.
inductive Node where
  | file (content : ByteArray)
  | folder (entries : Table Node)
  deriving Inhabited

-- The names that lead from the root to a node.
abbrev Place := List String

namespace Node

-- The node at a place below this one.
def at? : Node → Place → Option Node
  | n, [] => some n
  | .folder entries, name :: rest =>
    match entries.find? name with
    | some child => child.at? rest
    | none => none
  | .file _, _ :: _ => none

-- This node with another one at a place, whose folder exists.
def put : Node → Place → Node → Node
  | _, [], value => value
  | .folder entries, name :: rest, value =>
    .folder (entries.insert name (((entries.find? name).getD (.folder .empty)).put rest value))
  | .file content, _ :: _, _ => .file content

-- This node without the one at a place below it.
def remove : Node → Place → Node
  | n, [] => n
  | .folder entries, [name] => .folder (entries.erase name)
  | .folder entries, name :: next :: rest =>
    match entries.find? name with
    | some child => .folder (entries.insert name (child.remove (next :: rest)))
    | none => .folder entries
  | .file content, _ :: _ => .file content

end Node

-- All files, under one folder.
structure FileSystem where
  root : Node
  deriving Inhabited

namespace FileSystem

-- Nothing but the root.
def empty : FileSystem := ⟨.folder .empty⟩

-- Names may have this many bytes.
def maxNameBytes : Nat := 255

-- Paths have fewer bytes than this.
def pathBytesLimit : Nat := 4096

variable (fs : FileSystem)

def at? (place : Place) : Option Node := fs.root.at? place

-- Where a path leads from a place. Every name on the way is looked up in a folder.
def walk (here : Place) : List String → Except FileError Place
  | [] => .ok here
  | segment :: rest =>
    match fs.at? here with
    | some (.folder entries) =>
      if Path.staysPut segment then walk here rest
      else if segment = ".." then walk here.dropLast rest
      else if maxNameBytes < segment.utf8ByteSize then .error .nameTooLong
      else if (entries.find? segment).isSome then walk (here ++ [segment]) rest
      else .error .notFound
    | _ => .error .notAFolder

-- What is wrong with a path before any of it is walked.
def checkPath (p : Path) : Except FileError Unit :=
  if p.text.toList.contains '\x00' then .error .nulInPath
  else if p.isEmpty then .error .notFound
  else if pathBytesLimit ≤ p.text.utf8ByteSize then .error .nameTooLong
  else .ok ()

-- The place that a path leads to.
def locate (p : Path) : Except FileError Place := do
  checkPath p
  fs.walk [] p.segments

-- The entry that a path speaks of, whether it exists or not: its folder and its last segment, if it has one.
def locateEntry (p : Path) : Except FileError (Place × Table Node × Option String) := do
  checkPath p
  let (before, last) := p.splitLast
  let place ← fs.walk [] before
  match fs.at? place with
  | some (.folder entries) => return (place, entries, last)
  | _ => .error .notAFolder

-- Whether a segment names an entry of the folder that it is in.
def isName (segment : String) : Bool := !Path.staysPut segment && segment ≠ ".."

-- Whether a path leads anywhere.
def pathExists (p : Path) : Bool := (fs.locate p).isOk

-- Whether a path leads to a folder.
def isFolder (p : Path) : Bool :=
  match fs.locate p with
  | .ok place =>
    match fs.at? place with
    | some (.folder _) => true
    | _ => false
  | .error _ => false

-- The bytes of a file.
def readBytes (p : Path) : Except FileError ByteArray := do
  let place ← fs.locate p
  match fs.at? place with
  | some (.file content) => return content
  | _ => .error .isAFolder

-- The file system with some bytes as a file, which is created or replaced.
def writeBytes (p : Path) (content : ByteArray) : Except FileError FileSystem := do
  let (place, entries, last) ← fs.locateEntry p
  match last with
  | none => .error .isAFolder
  | some name =>
    if !isName name || p.hasTrailingSlash then .error .isAFolder
    else if maxNameBytes < name.utf8ByteSize then .error .nameTooLong
    else
      match entries.find? name with
      | some (.folder _) => .error .isAFolder
      | _ => return ⟨fs.root.put (place ++ [name]) (.file content)⟩

-- The file system with a new folder.
def createFolder (p : Path) : Except FileError FileSystem := do
  let (place, entries, last) ← fs.locateEntry p
  match last with
  | none => .error .alreadyExists
  | some name =>
    if !isName name then .error .alreadyExists
    else if maxNameBytes < name.utf8ByteSize then .error .nameTooLong
    else if (entries.find? name).isSome then .error .alreadyExists
    else return ⟨fs.root.put (place ++ [name]) (.folder .empty)⟩

-- Creates a folder and the folders above it that are missing. Whatever stands in the way is no error
-- if the path leads to a folder all the same. What was created before an error stays.
def createFolders (fs : FileSystem) (p : Path) : Except FileError Unit × FileSystem :=
  if p.isEmpty then (.ok (), fs)
  else
    match fs.createFolder p with
    | .ok fs' => (.ok (), fs')
    | .error .notFound =>
      if _h : p.segments ≠ [] then
        match createFolders fs p.parent with
        | (.error e, fs') => (.error e, fs')
        | (.ok (), fs') =>
          match fs'.createFolder p with
          | .ok fs'' => (.ok (), fs'')
          | .error e => if fs'.isFolder p then (.ok (), fs') else (.error e, fs')
      else (.error .notFound, fs)
    | .error e => if fs.isFolder p then (.ok (), fs) else (.error e, fs)
termination_by p.segments.length
decreasing_by exact Path.parent_length_lt _h

-- Removes a folder with all that is in it. Its entries go first; the folder itself stays if the path
-- ends in dots, which no entry can be removed by.
def removeFolder (p : Path) : Except FileError Unit × FileSystem :=
  match fs.locate p with
  | .error e => (.error e, fs)
  | .ok place =>
    match fs.at? place with
    | some (.folder _) =>
      let emptied : FileSystem := ⟨fs.root.put place (.folder .empty)⟩
      match emptied.locateEntry p with
      | .error .notFound => (.ok (), emptied)
      | .error e => (.error e, emptied)
      | .ok (_, _, none) => (.error .busy, emptied)
      | .ok (parent, _, some name) =>
        if name = "." then (.error .invalidArgument, emptied)
        else if name = ".." then (.error .folderNotEmpty, emptied)
        else (.ok (), ⟨emptied.root.remove (parent ++ [name])⟩)
    | _ => (.error .notAFolder, fs)

end FileSystem

end Palette
