import Palette.Accessor.Source
import Palette.Catalog.Write

-- What the program can be told to do, and why what it was told may be refused.

namespace Palette.Command

-- What to print of a sheet that is in order.
inductive Report where
  | summary
  | json
  | yaml
  deriving DecidableEq, Inhabited

inductive Task where
  | writeCatalog (input output : Path) (options : Catalog.Options)
  | writeAccessors (input output : Path) (mode : Accessor.Mode) (access : Accessor.Access) (force : Bool)
  | check (input : Path) (report : Report)
  deriving Inhabited

-- The sheet that a task is about.
def Task.input : Task → Path
  | .writeCatalog input _ _ => input
  | .writeAccessors input _ _ _ _ => input
  | .check input _ => input

-- A task, and how often more logging was asked for.
structure Invocation where
  verbosity : Nat
  task : Task
  deriving Inhabited

-- Why there is nothing to run. Help and the version are asked for; all else is a mistake.
inductive Refusal where
  | help
  | helpForMissing
  | version
  | missingSubcommand
  | invalidSubcommand
  | unknownArgument
  | tooManyValues
  | invalidValue
  | valueValidation (reason : String)
  | argumentConflict
  | missingRequired
  deriving DecidableEq, Inhabited

-- What is printed when the version is asked for.
def versionText : String := "colorsheet 0.3.0\n"

end Palette.Command
