import RecipeLint.CommandLine.Failure
import RecipeLint.CommandLine.Options
import RecipeLint.Report.Format

/-!
# Running a command line

Files and standard input are behind an interface, so that a run can be followed in memory as well
as in the world. Nothing is printed unless everything was read.
-/

namespace RecipeLint.CommandLine

/-- What a run can see of its surroundings. -/
structure World (m : Type → Type) where
  readFile : Text → m (Except SystemError (List UInt8))
  readInput : m (List UInt8)
  configDirectory? : Option Text

inductive Outcome where
  | printed (output : Text) (fails : Bool)
  | failed (failure : Failure)

namespace Outcome

def output : Outcome → Text
  | printed output _ => output
  | failed _ => []

/-- Zero when all is well, one when a check fails, two when there was none. -/
def exitCode : Outcome → Nat
  | printed _ fails => if fails then 1 else 0
  | failed _ => 2

def failure? : Outcome → Option Failure
  | printed _ _ => none
  | failed failure => some failure

end Outcome

def programName : String := "mklint"

def version : Text :=
  (programName ++ " 0.1.0\n").toList

def help : Text :=
  ("Check how make variables are quoted in shell commands\n\n" ++
    s!"Usage: {programName} [OPTIONS] [FILES]...\n\n" ++
    "Each line of a file is a piece of shell text. Without files, or for the file -, standard\n" ++
    "input is read.\n\n" ++
    "Options:\n" ++
    "  -c, --context <CONTEXT>  where the lines are from: shell, assign, for, condition\n" ++
    "      --var <NAME>         the variable that is assigned\n" ++
    "      --types <FILE>       types of variables, merged over the built-in ones\n" ++
    "      --start <STATE>      the quoting state at the start of each line\n" ++
    "  -o, --output <FORMAT>    text or json\n" ++
    "      --show-source        show an excerpt below each diagnostic\n" ++
    "      --dump               show atoms, commands and rendered diagnostics\n" ++
    "  -h, --help               show this text\n" ++
    "  -V, --version            show the version\n").toList

def join (directory name : Text) : Text :=
  if directory = [] ∨ directory.getLast? = some '/' then directory ++ name
  else directory ++ '/' :: name

def userOverlay (configDirectory : Text) : Text :=
  join (join configDirectory programName.toList) "vartypes.toml".toList

def inputName : Text := ['-']

def fileText : Except SystemError (List UInt8) → Except ReadError Text
  | .error e => .error (.system e)
  | .ok bytes => (Utf8.decode bytes).mapError fun _ => .notText

/-- The built-in configuration with the overlay in a file. -/
def overlaid (path : Text) (content : Except SystemError (List UInt8)) : Except Failure Config :=
  match fileText content with
  | .error e => .error (.typesNotRead path e)
  | .ok text =>
    match Config.builtin.merge text with
    | (config, none) => .ok config
    | (_, some e) => .error (.typesNotMerged path e)

def Origin.site (types : Registry) : Origin → Site
  | recipe => .recipe
  | assignment name => .assignment (types name)
  | loop => .loop
  | condition => .condition

def Options.check (o : Options) (config : Config) (path text : Text) : CheckedFile :=
  let types := config.types.lookup?
  let site := o.origin.site types
  lintSource (fun line => lintLine types config.settings line o.start site) path text

/-- Writes a report. A dump never makes a check fail. -/
def Options.outcome (o : Options) (files : List CheckedFile) : Outcome :=
  match o.dump, o.format with
  | true, .text => .printed (Report.dump files) false
  | true, .json => .printed (Report.dumpJson files) false
  | false, .text => .printed (Report.listing o.showSource files) (Counts.ofFiles files).fails
  | false, .json => .printed (Report.json files) (Counts.ofFiles files).fails

namespace World

variable {m : Type → Type} [Monad m]

/-- The configuration: with the overlay that is asked for, or else with that of the user, if there
is one. -/
def config (w : World m) : Option Text → m (Except Failure Config)
  | some path => return overlaid path (← w.readFile path)
  | none =>
    match w.configDirectory? with
    | none => return .ok .builtin
    | some directory => do
      let path := userOverlay directory
      match ← w.readFile path with
      | .error e => return if e.saysNoFile then .ok .builtin else overlaid path (.error e)
      | .ok bytes => return overlaid path (.ok bytes)

/-- The text of one of the files. Standard input can be read only once, and is empty after that. -/
def text (w : World m) (inputRead : Bool) (path : Text) : m (Except Failure Text) := do
  if path = inputName then
    if inputRead then return .ok []
    else return (Utf8.decode (← w.readInput)).mapError .inputNotText
  else return (fileText (← w.readFile path)).mapError (.fileNotRead path)

/-- The files with their texts, up to the first one without a text. -/
def texts (w : World m) (inputRead : Bool) : List Text → m (Except Failure (List (Text × Text)))
  | [] => return .ok []
  | path :: paths => do
    match ← w.text inputRead path with
    | .error failure => return .error failure
    | .ok text =>
      return (← w.texts (inputRead || path = inputName) paths).map ((path, text) :: ·)

def run (w : World m) (words : List Text) : m Outcome := do
  match Request.ofWords words with
  | .misused => return .failed .misuse
  | .help => return .printed help false
  | .version => return .printed version false
  | .check options =>
    match ← w.config options.types? with
    | .error failure => return .failed failure
    | .ok config =>
      match ← w.texts false (if options.files = [] then [inputName] else options.files) with
      | .error failure => return .failed failure
      | .ok texts =>
        return options.outcome (texts.map fun (path, text) => options.check config path text)

end World

end RecipeLint.CommandLine
