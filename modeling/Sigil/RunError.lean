import Sigil.Storage

namespace Sigil

/-- Why a settings file cannot be used. -/
inductive ConfigError where
  | unreadable (path : String) (reason : SystemError)
  | invalid (path : String)
deriving DecidableEq, Repr

def ConfigError.message : ConfigError → String
  | .unreadable path reason => "failed to read " ++ path ++ ": " ++ reason.message
  | .invalid path => "invalid config " ++ path

/-- Why a run does not start. -/
inductive RunError where
  | config (error : ConfigError)
  | invalidGlob (pattern : String)
  | missingInput (path : String)
  | noInputs (extension : String)
  | nameWithManyFiles (count : Nat)
  | noWorkingDirectory
deriving DecidableEq, Repr

def RunError.message : RunError → String
  | .config error => error.message
  | .invalidGlob pattern => "invalid glob pattern: " ++ pattern
  | .missingInput path => "input not found: " ++ path
  | .noInputs extension => "no ." ++ extension ++ " files found"
  | .nameWithManyFiles count => "--name needs exactly one input file, found " ++ toString count
  | .noWorkingDirectory => "cannot determine the working directory"

end Sigil
