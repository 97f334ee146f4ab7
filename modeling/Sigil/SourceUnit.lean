import Sigil.Dialect
import Sigil.Glob.Reader
import Sigil.RunError
import Sigil.Settings
import Sigil.Text.Order

namespace Sigil

/-- A source to compile: its path, and the path its output has below an output directory. -/
structure SourceUnit where
  path : String
  relative : String
deriving DecidableEq, Repr

namespace SourceUnit

/-- The unit of a file that is named on the command line. -/
def ofFile (path : String) : SourceUnit := ⟨path, (Path.fileName? path).getD path⟩

/-- The unit of a file that is found below a directory. -/
def ofNames (dir : String) (names : List String) : SourceUnit :=
  ⟨names.foldl Path.join dir, "/".intercalate names⟩

/-- Where the output of a unit goes. -/
def outputPath (unit : SourceUnit) (settings : Settings) : String :=
  let extension := settings.dialect.extension
  match settings.outDir? with
  | some dir => Path.withExtension (Path.join dir unit.relative) extension
  | none => Path.withExtension unit.path extension

end SourceUnit

/-- The patterns that every scan of a directory goes by. -/
def defaultIgnores : List String := ["**/node_modules/**", "**/.git/**", "**/target/**"]

/-- Reads patterns, or names the first one that is no glob. -/
def readGlobs (patterns : List String) : Except RunError (List Glob) :=
  patterns.mapM fun pattern =>
    match Glob.parse? pattern with
    | some glob => .ok glob
    | none => .error (.invalidGlob pattern)

/-- Of the files below a directory, given by names, the sources that no glob takes, in order. -/
def selectSources (extension : String) (ignore : List Glob) (files : List (List String)) :
    List (List String) :=
  let isSource (names : List String) : Bool :=
    ('.' :: extension.toList).isSuffixOf (names.getLastD "").toList &&
      !ignore.any (·.accepts ("/".intercalate names))
  (files.filter isSource).mergeSort namesLE

section

variable {m : Type → Type} [Monad m] [Storage m]

/-- The units of one input: those below a directory, or a file itself. -/
def expand (extension : String) (ignore : List Glob) (input : String) :
    m (Except RunError (List SourceUnit)) := do
  if ← Storage.isDirectory input then
    let files ← Storage.filesBelow input
    return .ok ((selectSources extension ignore files).map (SourceUnit.ofNames input))
  if ← Storage.isFile input then return .ok [.ofFile input]
  return .error (.missingInput input)

/-- The units of all inputs in turn. -/
def discover (extension : String) (ignore : List Glob) :
    List String → m (Except RunError (List SourceUnit))
  | [] => return .ok []
  | input :: inputs => do
    match ← expand extension ignore input with
    | .error e => return .error e
    | .ok units => return (← discover extension ignore inputs).map (units ++ ·)

end

end Sigil
