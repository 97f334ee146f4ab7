import Sigil.Args
import Sigil.Config
import Sigil.Dialect

namespace Sigil

/-- What a run goes by. -/
structure Settings where
  typed : Bool
  sourceMap : Bool
  outDir? : Option String
  /-- Sources end in a dot and this. -/
  extension : String
  ignore : List String
deriving DecidableEq, Repr

namespace Settings

def defaultExtension : String := "hks"

/-- An extension without the dots in front of it. -/
def extensionOf (written : Option String) : String :=
  match written.map fun s => s.toList.dropWhile (· = '.') with
  | some (c :: cs) => String.ofList (c :: cs)
  | _ => defaultExtension

/-- Lays the command line over the settings file. -/
def resolve (args : Args) (config : Config) : Settings where
  typed := args.typed || config.typed
  sourceMap := args.sourceMap || config.sourceMap
  outDir? := args.outDir?.or config.outDir?
  extension := extensionOf config.extension?
  ignore := config.ignore ++ args.ignore

/-- The form of the output. -/
def dialect (settings : Settings) : Dialect := if settings.typed then .typed else .plain

end Settings

end Sigil
