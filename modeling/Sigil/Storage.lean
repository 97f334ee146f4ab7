import Sigil.Path

namespace Sigil

/-- Why the system does not do what it is asked to. -/
inductive SystemError where
  | notFound
  | alreadyExists
  | notADirectory
  | isADirectory
  | nameTooLong
  | nulInName
  | notText
  | other (text : String)
deriving DecidableEq, Repr

def SystemError.message : SystemError → String
  | .notFound => "No such file or directory (os error 2)"
  | .alreadyExists => "File exists (os error 17)"
  | .notADirectory => "Not a directory (os error 20)"
  | .isADirectory => "Is a directory (os error 21)"
  | .nameTooLong => "File name too long (os error 36)"
  | .nulInName => "file name contained an unexpected NUL byte"
  | .notText => "stream did not contain valid UTF-8"
  | .other text => text

/-- Files as a run sees them. -/
class Storage (m : Type → Type) where
  /-- The absolute path that relative ones are taken from, if there is still such a directory. -/
  workingDirectory : m (Option String)
  isDirectory : String → m Bool
  isFile : String → m Bool
  /-- The names that lead from a directory to each file below it. -/
  filesBelow : String → m (List (List String))
  read : String → m (Except SystemError String)
  /-- Makes a directory where nothing is yet. -/
  makeDirectory : String → m (Except SystemError Unit)
  /-- Puts a text into a file, in a directory that is there. -/
  putFile : String → String → m (Except SystemError Unit)

namespace Storage

variable {m : Type → Type} [Monad m] [Storage m]

/-- Makes a directory, or finds it made. -/
def ensureDirectory (path : String) : m (Except SystemError Unit) := do
  match ← makeDirectory path with
  | .ok () => return .ok ()
  | .error e => if e ≠ .notFound ∧ (← isDirectory path) then return .ok () else return .error e

/-- Makes a directory and those that lead to it, as far as they are missing. -/
def makeDirectories (path : String) : m (Except SystemError Unit) := do
  if path = "" then return .ok ()
  match ← ensureDirectory path, Path.parent? path with
  | .error .notFound, some parent =>
    if parent.length < path.length then
      match ← makeDirectories parent with
      | .ok () => ensureDirectory path
      | .error e => return .error e
    else return .error .notFound
  | result, _ => return result
termination_by path.length

/-- Writes a file and makes the directories that lead to it. -/
def write (path text : String) : m (Except SystemError Unit) := do
  match ← makeDirectories ((Path.parent? path).getD "") with
  | .ok () => putFile path text
  | .error e => return .error e

end Storage

end Sigil
