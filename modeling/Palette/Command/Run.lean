import Palette.Command.Invocation
import Palette.Accessor.Write
import Palette.Sheet.Dump
import Palette.Sheet.Load

-- Carrying out a task: the sheet is read first, files are written next, and what was done is printed
-- last.

namespace Palette.Command

-- Why a task failed.
inductive RunError where
  | noSuchFile (path : Path)
  | load (e : LoadError)
  | generate (path : Path) (e : OutputError)
  | unresolvable (path : Path) (e : ResolveError)
  deriving DecidableEq, Inhabited

namespace RunError

-- What happened, then its causes. A cause comes again by itself where the text before it tells it, too.
def causes : RunError → List String
  | .noSuchFile path => ["no such file: " ++ path.text]
  | .load (.file path e) => [(LoadError.file path e).message, e.message]
  | .load (.parse path e) => [(LoadError.parse path e).message, e.message]
  | .generate path (.resolve e) => ["failed to generate " ++ path.text, e.message]
  | .generate path (.file at_ e) =>
    ["failed to generate " ++ path.text, (OutputError.file at_ e).message, e.message]
  | .unresolvable path e => [path.text ++ " has unresolvable variables", e.message]

def message (e : RunError) : String := ": ".intercalate e.causes

end RunError

-- How text may stand out on a terminal.
inductive Highlight where
  | green
  | yellow
  | boldGreen
  deriving DecidableEq, Inhabited

-- Text that stands out, if the terminal can show it.
def highlight (colored : Bool) (h : Highlight) (text : String) : String :=
  if colored then
    match h with
    | .green => "\x1b[32m" ++ text ++ "\x1b[0m"
    | .yellow => "\x1b[33m" ++ text ++ "\x1b[0m"
    | .boldGreen => "\x1b[32m\x1b[1m" ++ text ++ "\x1b[0m"
  else text

def catalogWritten (colored : Bool) (counts : Counts) (output : Path) : String :=
  highlight colored .green
    s!"Wrote {counts.colors} colors in {counts.groups} groups to {output.text}" ++ "\n"

def accessorsWritten (colored : Bool) (output : Path) : Accessor.Written → String
  | .written => highlight colored .green ("Wrote " ++ output.text) ++ "\n"
  | .unchanged =>
    highlight colored .yellow
      ("Contents of " ++ output.text ++ " are identical; the file has not been touched") ++ "\n"

def reportText (colored : Bool) (input : Path) (sheet : Sheet) (Γ : Context) : Report → String
  | .summary =>
    highlight colored .boldGreen "ok" ++ " " ++ input.text ++
      s!": {Γ.size} variables, {sheet.counts.groups} groups, {sheet.counts.colors} colors\n"
  | .json => (Data.ofSheet sheet).toPrettyJson ++ "\n"
  | .yaml => (Data.ofSheet sheet).toYaml

variable {m : Type → Type} [Monad m] [FileStore m]

def load (input : Path) : ExceptT RunError m Sheet := do
  if ← (FileStore.pathExists input : m Bool) then
    ExceptT.adapt .load (Sheet.load input)
  else throw (.noSuchFile input)

-- Work on files, which prints nothing.
def onFiles (work : ExceptT RunError m α) : ExceptT RunError (StateT String m) α :=
  ExceptT.mk (StateT.lift work.run)

-- Prints a text behind all that was printed before.
def print (text : String) : ExceptT RunError (StateT String m) Unit :=
  ExceptT.mk fun printed => return (.ok (), printed ++ text)

-- Carries out a task. What it prints is kept as a state, and stays where the task fails later on.
def carryOut (colored : Bool) : Task → ExceptT RunError (StateT String m) Unit
  | .writeCatalog input output options => do
    let sheet ← onFiles (load input)
    let counts ← onFiles <| ExceptT.adapt (.generate output) <|
      Catalog.write options (.ofSheet sheet) sheet output
    print (catalogWritten colored counts output)
  | .writeAccessors input output mode access force => do
    let sheet ← onFiles (load input)
    let style : Accessor.Style := { mode := mode, access := access }
    let outcome ← onFiles <| ExceptT.adapt (.generate output) <|
      Accessor.write style (.ofSheet sheet) sheet output force
    print (accessorsWritten colored output outcome)
  | .check input report => do
    let sheet ← onFiles (load input)
    let Γ := Context.ofSheet sheet
    match Γ.validate with
    | .error e => throw (.unresolvable input e)
    | .ok () => print (reportText colored input sheet Γ report)

end Palette.Command
