import Sigil.Run

namespace Sigil

/-- What went wrong by the system's own account, whose codes may be negated. -/
def SystemError.ofIO (e : IO.Error) : SystemError :=
  match e with
  | .noFileOrDirectory _ _ _ => .notFound
  | .alreadyExists _ _ _ => .alreadyExists
  | .inappropriateType _ code _ =>
    match code.toInt32.toInt.natAbs with
    | 20 => .notADirectory
    | 21 => .isADirectory
    | _ => .other (toString e)
  | .invalidArgument _ code _ =>
    match code.toInt32.toInt.natAbs with
    | 22 => .nulInName
    | 36 => .nameTooLong
    | _ => .other (toString e)
  | e => .other (toString e)

def catching {α : Type} (act : IO α) : IO (Except SystemError α) := do
  try return .ok (← act)
  catch e => return .error (.ofIO e)

partial def namesBelow (path : String) : IO (List (List String)) := do
  let mut found := #[]
  for entry in ← (System.mkFilePath [path]).readDir do
    let metadata ← entry.path.symlinkMetadata
    match metadata.type with
    | .file => found := found.push [entry.fileName]
    | .dir =>
      for names in ← namesBelow (Path.join path entry.fileName) do
        found := found.push (entry.fileName :: names)
    | _ => pure ()
  return found.toList

instance : Storage IO where
  workingDirectory := do return (← catching IO.currentDir).toOption.map toString
  isDirectory path := (System.mkFilePath [path]).isDir
  isFile path := do
    match ← catching (System.mkFilePath [path]).metadata with
    | .ok metadata => return metadata.type == .file
    | .error _ => return false
  filesBelow := namesBelow
  read path := do
    match ← catching (IO.FS.readBinFile path) with
    | .error e => return .error e
    | .ok bytes =>
      match String.fromUTF8? bytes with
      | some text => return .ok text
      | none => return .error .notText
  makeDirectory path := catching (IO.FS.createDir path)
  putFile path text := catching (IO.FS.writeFile path text)

end Sigil

open Sigil in
/-- Compiles what the command line names. The exit code tells whether all of it compiled. -/
def main (arguments : List String) : IO UInt32 := do
  match Args.parse arguments with
  | .error .help => IO.println UsageError.help.message; return 0
  | .error .version => IO.println UsageError.version.message; return 0
  | .error e => IO.eprintln e.message; return 2
  | .ok args =>
    match ← Sigil.run args with
    | .error e => IO.eprintln e.message; return 1
    | .ok outcome =>
      IO.print (outcome.printed args)
      IO.eprint (outcome.report args.output)
      return if outcome.failures.isEmpty then 0 else 1
