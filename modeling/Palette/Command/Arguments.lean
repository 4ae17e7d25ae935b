import Palette.Command.Invocation

-- Command lines, read word by word. A value that was given is looked at only when the next argument
-- that is known comes up, or at the end; an unknown argument before that is the mistake that counts.
-- Then a missing value comes first, next a second value for the same argument, last a value that
-- cannot be read.

namespace Palette.Command

inductive Subcommand where
  | writeCatalog
  | writeAccessors
  | check
  deriving DecidableEq, Inhabited

def Subcommand.ofWord? : String → Option Subcommand
  | "gen-assets" => some .writeCatalog
  | "gen-swift" => some .writeAccessors
  | "check" => some .check
  | _ => none

-- The word that asks for help on a subcommand.
def helpWord : String := "help"

-- What may be given behind a subcommand: the input, which has no name, and what has a value or none.
inductive Argument where
  | input
  | output
  | colorSpace
  | author
  | mode
  | access
  | force
  | report
  deriving DecidableEq, Inhabited

-- The argument with a long name.
def Subcommand.longArgument? : Subcommand → String → Option Argument
  | .writeCatalog, "output" => some .output
  | .writeCatalog, "color-space" => some .colorSpace
  | .writeCatalog, "author" => some .author
  | .writeAccessors, "output" => some .output
  | .writeAccessors, "mode" => some .mode
  | .writeAccessors, "access" => some .access
  | .writeAccessors, "force" => some .force
  | .check, "format" => some .report
  | _, _ => none

-- The argument with a short name.
def Subcommand.shortArgument? : Subcommand → Char → Option Argument
  | .writeCatalog, 'o' => some .output
  | .writeAccessors, 'o' => some .output
  | _, _ => none

-- Values from outside the command line, for arguments that are not given.
structure Environment where
  colorSpace : Option String := none
  author : Option String := none
  deriving Inhabited

-- What was given so far.
structure Given where
  verbosity : Nat := 0
  input : Option Path := none
  output : Option Path := none
  colorSpace : Option ColorSpace := none
  author : Option String := none
  mode : Option Accessor.Mode := none
  access : Option Accessor.Access := none
  force : Option Unit := none
  report : Option Report := none
  deriving Inhabited

-- A path must not be empty.
def readPath (text : String) : Except Refusal Path :=
  if text.isEmpty then .error .invalidValue else .ok (.ofText text)

def readColorSpace (text : String) : Except Refusal ColorSpace :=
  match ColorSpace.ofText? text with
  | some c => .ok c
  | none => .error (.valueValidation (ColorSpace.unknownMessage text))

def readMode : String → Except Refusal Accessor.Mode
  | "asset-catalog" => .ok .assetCatalog
  | "dynamic-color" => .ok .dynamicColor
  | _ => .error .invalidValue

def readAccess : String → Except Refusal Accessor.Access
  | "internal" => .ok .internal
  | "public" => .ok .exported
  | _ => .error .invalidValue

def readReport : String → Except Refusal Report
  | "summary" => .ok .summary
  | "json" => .ok .json
  | "yaml" => .ok .yaml
  | _ => .error .invalidValue

-- A value for an argument that may be given once.
def once (old : Option α) (new : Except Refusal α) : Except Refusal (Option α) :=
  if old.isSome then .error .argumentConflict else new.map some

namespace Given

def set (g : Given) (argument : Argument) (text : String) : Except Refusal Given :=
  match argument with
  | .input => (once g.input (readPath text)).map ({ g with input := · })
  | .output => (once g.output (readPath text)).map ({ g with output := · })
  | .colorSpace => (once g.colorSpace (readColorSpace text)).map ({ g with colorSpace := · })
  | .author => (once g.author (.ok text)).map ({ g with author := · })
  | .mode => (once g.mode (readMode text)).map ({ g with mode := · })
  | .access => (once g.access (readAccess text)).map ({ g with access := · })
  | .force => (once g.force (.ok ())).map ({ g with force := · })
  | .report => (once g.report (readReport text)).map ({ g with report := · })

-- More than this much logging is not counted.
def maxVerbosity : Nat := 255

def louder (g : Given) : Given := { g with verbosity := min (g.verbosity + 1) maxVerbosity }

end Given

-- An argument that was named, with its value once that is given.
abbrev Pending := Option (Argument × Option String)

def settle (g : Given) : Pending → Except Refusal Given
  | none => .ok g
  | some (_, none) => .error .invalidValue
  | some (argument, some text) => g.set argument text

-- How a word looks.
inductive Word where
  | escape
  | long (name : String) (value : Option String)
  | short (letters : List Char)
  | plain
  deriving Inhabited

-- A lone hyphen and the empty word name nothing.
def Word.ofText (text : String) : Word :=
  match text.toList with
  | ['-', '-'] => .escape
  | '-' :: '-' :: rest =>
    let name := rest.takeWhile (· ≠ '=')
    match rest.dropWhile (· ≠ '=') with
    | [] => .long (String.ofList name) none
    | _ :: value => .long (String.ofList name) (some (String.ofList value))
  | '-' :: c :: rest => .short (c :: rest)
  | _ => .plain

section

variable (s : Subcommand)

-- A word of short names run together; the last may have its value behind it, or behind an equals sign.
def readShort (g : Given) (pending : Pending) : List Char → Except Refusal (Given × Pending)
  | [] => .ok (g, pending)
  | 'v' :: rest => do
    let g ← settle g pending
    readShort g.louder none rest
  | 'h' :: _ => do
    let _ ← settle g pending
    .error .help
  | c :: rest =>
    match s.shortArgument? c with
    | none => .error .unknownArgument
    | some argument => do
      let g ← settle g pending
      match rest with
      | [] => .ok (g, some (argument, none))
      | '=' :: value => return (← g.set argument (String.ofList value), none)
      | value => return (← g.set argument (String.ofList value), none)

-- A long name, with its value if that is in the same word.
def readLong (g : Given) (pending : Pending) (name : String) (value : Option String) :
    Except Refusal (Given × Pending) :=
  match name, value with
  | "verbose", none => return ((← settle g pending).louder, none)
  | "verbose", some _ => .error .tooManyValues
  | "help", none => do
    let _ ← settle g pending
    .error .help
  | "help", some _ => .error .tooManyValues
  | _, _ =>
    match s.longArgument? name, value with
    | none, _ => .error .unknownArgument
    | some .force, some _ => .error .tooManyValues
    | some .force, none => do
      let g ← settle g pending
      return (← g.set .force "", none)
    | some argument, some text => do
      let g ← settle g pending
      return (← g.set argument text, none)
    | some argument, none => return (← settle g pending, some (argument, none))

-- A word that has no name in front of it. There is only one such argument.
def readPositional (g : Given) (pending : Pending) (text : String) : Except Refusal (Given × Pending) :=
  let seen := g.input.isSome || match pending with
    | some (.input, _) => true
    | _ => false
  if seen then .error .unknownArgument else return (← settle g pending, some (.input, some text))

-- The words behind a subcommand. Behind an escape all words stand for themselves.
def readWords (g : Given) (pending : Pending) (escaped : Bool) : List String → Except Refusal Given
  | [] => settle g pending
  | text :: rest =>
    if escaped then do
      let (g, pending) ← readPositional g pending text
      readWords g pending true rest
    else
      match Word.ofText text, pending with
      | .escape, _ => readWords g pending true rest
      | .long name value, _ => do
        let (g, pending) ← readLong s g pending name value
        readWords g pending false rest
      | .short letters, _ => do
        let (g, pending) ← readShort s g pending letters
        readWords g pending false rest
      | .plain, some (argument, none) => readWords g (some (argument, some text)) false rest
      | .plain, _ => do
        let (g, pending) ← readPositional g pending text
        readWords g pending false rest

end

-- A value that must be given.
def required : Option α → Except Refusal α
  | some a => .ok a
  | none => .error .missingRequired

-- The task that was asked for. Values from the environment are read first, and only where none was given.
def Given.task (env : Environment) (g : Given) : Subcommand → Except Refusal Task
  | .writeCatalog => do
    let colorSpace ← match g.colorSpace, env.colorSpace with
      | some c, _ => .ok c
      | none, some text => readColorSpace text
      | none, none => .ok .srgb
    let input ← required g.input
    let output ← required g.output
    let defaults : Catalog.Options := {}
    let author := (g.author.or env.author).getD defaults.author
    return .writeCatalog input output ⟨colorSpace, author⟩
  | .writeAccessors => do
    let input ← required g.input
    let output ← required g.output
    return .writeAccessors input output (g.mode.getD .assetCatalog) (g.access.getD .internal) g.force.isSome
  | .check => return .check (← required g.input) (g.report.getD .summary)

-- A request for help, on everything or on one subcommand.
def readHelp : List String → Refusal
  | [] => .help
  | [word] => if (Subcommand.ofWord? word).isSome || word = helpWord then .help else .invalidSubcommand
  | _ => .invalidSubcommand

-- Short names in front of the subcommand, run together.
def readRootShort (verbosity : Nat) : List Char → Except Refusal Nat
  | [] => .ok verbosity
  | 'v' :: rest => readRootShort (min (verbosity + 1) Given.maxVerbosity) rest
  | 'h' :: _ => .error .help
  | 'V' :: _ => .error .version
  | _ => .error .unknownArgument

-- All words of a command line.
def readRoot (env : Environment) (verbosity : Nat) (escaped : Bool) :
    List String → Except Refusal Invocation
  | [] => .error (if verbosity = 0 then .helpForMissing else .missingSubcommand)
  | text :: rest =>
    if escaped then
      .error (if (Subcommand.ofWord? text).isSome || text = helpWord then .unknownArgument
        else .invalidSubcommand)
    else
      match Word.ofText text with
      | .escape => readRoot env verbosity true rest
      | .long "verbose" none => readRoot env (min (verbosity + 1) Given.maxVerbosity) false rest
      | .long "help" none => .error .help
      | .long "version" none => .error .version
      | .long name _ =>
        .error (if name ∈ ["verbose", "help", "version"] then .tooManyValues else .unknownArgument)
      | .short letters => do
        let verbosity ← readRootShort verbosity letters
        readRoot env verbosity false rest
      | .plain =>
        if text = helpWord then .error (readHelp rest)
        else match Subcommand.ofWord? text with
          | none => .error .invalidSubcommand
          | some s => do
            let g ← readWords s {} none false rest
            let task ← g.task env s
            return ⟨if g.verbosity = 0 then verbosity else g.verbosity, task⟩

-- Reads a command line, without the name of the program.
def read (env : Environment) (words : List String) : Except Refusal Invocation :=
  readRoot env 0 false words

end Palette.Command
