import Palette.Command.Arguments
import Palette.Command.Run
import Palette.LogLevel

-- The program: reads its arguments and two variables of its environment, and works on the disk.

namespace Palette

-- The cause of an error that the system reported.
def FileError.ofCode (code : UInt32) (details : String) : FileError :=
  match code with
  | 2 => .notFound
  | 16 => .busy
  | 17 => .alreadyExists
  | 20 => .notAFolder
  | 21 => .isAFolder
  | 22 => .invalidArgument
  | 36 => .nameTooLong
  | 39 => .folderNotEmpty
  | _ => .other (details ++ " (os error " ++ toString code ++ ")")

def FileError.ofIOError : IO.Error → FileError
  | .alreadyExists _ code details
  | .inappropriateType _ code details
  | .invalidArgument _ code details
  | .noSuchThing _ code details
  | .permissionDenied _ code details
  | .resourceExhausted _ code details
  | .noFileOrDirectory _ code details
  | .interrupted _ code details
  | .resourceBusy code details
  | .unsatisfiedConstraints code details
  | .illegalOperation code details
  | .hardwareFault code details
  | .otherError code details => .ofCode code details
  | e => .other (toString e)

-- An action on the disk with its failure as a value.
def onDisk (action : IO α) : IO (Except FileError α) := do
  match ← action.toBaseIO with
  | .ok a => return .ok a
  | .error e => return .error (.ofIOError e)

instance : FileStore IO where
  pathExists p := return (← onDisk (IO.FS.realPath p.text)).isOk
  readBytes p := onDisk (IO.FS.readBinFile p.text)
  writeBytes p content := onDisk (IO.FS.writeBinFile p.text content)
  createFolder p := onDisk (IO.FS.createDir p.text)
  createFolders p := onDisk (IO.FS.createDirAll p.text)
  removeFolder p := onDisk (IO.FS.removeDirAll p.text)

namespace Command

-- How the program is used.
def usage : String :=
  "Compile light/dark color sheets for Xcode\n\n" ++
  "Usage: colorsheet [-v]... gen-assets <INPUT> --output <OUTPUT> [--color-space <SPACE>] [--author <AUTHOR>]\n" ++
  "       colorsheet [-v]... gen-swift <INPUT> --output <OUTPUT> [--mode <MODE>] [--access <ACCESS>] [--force]\n" ++
  "       colorsheet [-v]... check <INPUT> [--format <FORMAT>]\n"

-- What is said about arguments that cannot be used.
def Refusal.complaint : Refusal → String
  | .help => "help was asked for"
  | .version => "the version was asked for"
  | .helpForMissing => "nothing was asked for"
  | .missingSubcommand => "a subcommand is missing"
  | .invalidSubcommand => "there is no such subcommand"
  | .unknownArgument => "there is no such argument"
  | .tooManyValues => "a value was given where there is none"
  | .invalidValue => "a value is missing or not one of those that are possible"
  | .valueValidation reason => reason
  | .argumentConflict => "an argument was given twice"
  | .missingRequired => "a required argument is missing"

-- Tells that the input of a task is read, if there is one and so much is logged.
def logInput (level : LogLevel) (input : Path) : IO Unit := do
  if level.shows .debug && (← FileStore.pathExists input) then
    IO.eprintln (LogLevel.debug.name ++ ": parsing path=" ++ input.text)

end Command

end Palette

open Palette in
def main (arguments : List String) : IO UInt32 := do
  let env : Command.Environment :=
    ⟨← IO.getEnv "COLORSHEET_COLOR_SPACE", ← IO.getEnv "COLORSHEET_AUTHOR"⟩
  match Command.read env arguments with
  | .error .version =>
    IO.print Command.versionText
    return 0
  | .error .help =>
    IO.print Command.usage
    return 0
  | .error refusal =>
    IO.eprint ("error: " ++ refusal.complaint ++ "\n\n" ++ Command.usage)
    return 2
  | .ok invocation =>
    Command.logInput (.ofVerbosity invocation.verbosity) invocation.task.input
    let (result, printed) ← (Command.carryOut false invocation.task).run.run ""
    IO.print printed
    match result with
    | .ok () => return 0
    | .error e =>
      IO.eprintln ("error: " ++ e.message)
      return 1
