import Sigil.Compile
import Sigil.Outcome
import Sigil.SourceUnit

namespace Sigil

/-- How a unit is compiled. Only output that goes to a file is mapped. -/
def SourceUnit.options (unit : SourceUnit) (args : Args) (settings : Settings) :
    CompileOptions where
  name := args.name?.getD (Names.componentFromPath unit.path)
  dialect := settings.dialect
  mapLines := settings.typed && settings.sourceMap && !args.stdout
  source := unit.path
  fileName := Path.fileName? (unit.outputPath settings)

/-- The path of the map of a module. -/
def mapPath (path : String) : String := path ++ ".map"

/-- The text of a module that is kept in a file: its last line names the map, if there is one. -/
def Output.moduleAt (output : Output) (path : String) : String :=
  match output.map with
  | some _ =>
    output.code ++ "//# sourceMappingURL=" ++ (Path.fileName? (mapPath path)).getD "" ++ "\n"
  | none => output.code

/-- The files an output is kept in, each with its text: the module, and the map if there is one. -/
def Output.files (output : Output) (path : String) : List (String × String) :=
  (path, output.moduleAt path) ::
    (output.map.map fun map => (mapPath path, map.document)).toList

section

variable {m : Type → Type} [Monad m] [Storage m]

def loadConfig (path : String) : m (Except ConfigError Config) := do
  match ← Storage.read path with
  | .error reason => return .error (.unreadable path reason)
  | .ok text =>
    match Config.ofText? path text with
    | some config => return .ok config
    | none => return .error (.invalid path)

/-- The settings file of a directory, if there is one. -/
def findConfig (dir : String) : m (Except ConfigError (Option Config)) := do
  let path := Path.join dir Config.defaultName
  if ← Storage.isFile path then return (← loadConfig path).map some
  return .ok none

/-- The settings file that is named, or else the one of the working directory. -/
def chooseConfig (args : Args) : m (Except RunError Config) := do
  match args.config? with
  | some path => return (← loadConfig path).mapError .config
  | none =>
    match ← Storage.workingDirectory with
    | some dir => return ((← findConfig dir).map (·.getD {})).mapError .config
    | none => return .error .noWorkingDirectory

/-- Writes files in turn, up to the first that cannot be written. -/
def writeFiles : List (String × String) → m (Except FailureCause Unit)
  | [] => return .ok ()
  | (path, text) :: files => do
    match ← Storage.write path text with
    | .ok () => writeFiles files
    | .error e => return .error (.write path e.message)

/-- Compiles one unit and keeps its output, unless that is to be printed. Gives the text of the
module. -/
def compileUnit (args : Args) (settings : Settings) (unit : SourceUnit) :
    m (Except Failure String) := do
  match ← Storage.read unit.path with
  | .error e => return .error { path := unit.path, cause := .read e.message }
  | .ok source =>
    match compile source (unit.options args settings) with
    | .error d => return .error { path := unit.path, source? := some source, cause := .compile d }
    | .ok output =>
      if args.stdout then return .ok output.code
      let path := unit.outputPath settings
      match ← writeFiles (output.files path) with
      | .ok () => return .ok (output.moduleAt path)
      | .error cause => return .error { path := unit.path, cause }

/-- Compiles units in turn; a failure stops none of the others. -/
def compileUnits (args : Args) (settings : Settings) (units : List SourceUnit) : m Outcome := do
  return .ofResults (← units.mapM (compileUnit args settings))

/-- Lets the units that are found be compiled, unless there are none, or one name for many. -/
def checkUnits (args : Args) (settings : Settings) :
    List SourceUnit → Except RunError (Settings × List SourceUnit)
  | [] => .error (.noInputs settings.extension)
  | units =>
    if args.name?.isSome ∧ 1 < units.length then .error (.nameWithManyFiles units.length)
    else .ok (settings, units)

/-- What a run does before it compiles: it settles the settings and finds the units. -/
def prepare (args : Args) : m (Except RunError (Settings × List SourceUnit)) := do
  match ← chooseConfig args with
  | .error e => return .error e
  | .ok config =>
    let settings := Settings.resolve args config
    match readGlobs (defaultIgnores ++ settings.ignore) with
    | .error e => return .error e
    | .ok ignore =>
      return (← discover settings.extension ignore args.inputs).bind (checkUnits args settings)

/-- Does what a command line asks for. -/
def run (args : Args) : m (Except RunError Outcome) := do
  match ← prepare args with
  | .error e => return .error e
  | .ok (settings, units) => return .ok (← compileUnits args settings units)

end

end Sigil
