import Sigil.Json
import Sigil.Json.Comments
import Sigil.Path

namespace Sigil

/-- The contents of a settings file. -/
structure Config where
  typed : Bool := false
  sourceMap : Bool := false
  outDir? : Option String := none
  extension? : Option String := none
  ignore : List String := []
deriving DecidableEq, Repr

namespace Config

/-- The settings file that is looked for where none is named. -/
def defaultName : String := "hooksmith.json"

def keys : List String := ["typed", "sourceMap", "outDir", "extension", "ignore"]

/-- What `read` makes of the member of a name, or `default` where there is none. -/
def member? {α : Type} (members : List (String × Json)) (key : String) (default : α)
    (read : Json → Option α) : Option α :=
  match members.lookup key with
  | some value => read value
  | none => some default

/-- Reads settings by name. A known name may stand there once; other names are passed over. -/
def ofMembers? (members : List (String × Json)) : Option Config := do
  guard (keys.all fun key => (members.map (·.1)).count key ≤ 1)
  return {
    typed := ← member? members "typed" false Json.bool?
    sourceMap := ← member? members "sourceMap" false Json.bool?
    outDir? := ← member? members "outDir" none (Json.nullOr? Json.text?)
    extension? := ← member? members "extension" none (Json.nullOr? Json.text?)
    ignore := ← member? members "ignore" [] (Json.list? Json.text?) }

/-- Reads settings by position; the ignored patterns may be left out. -/
def ofItems? : List Json → Option Config
  | typed :: sourceMap :: outDir :: extension :: rest => do
    let ignore ← match rest with
      | [] => some []
      | [patterns] => patterns.list? Json.text?
      | _ => none
    return {
      typed := ← typed.bool?
      sourceMap := ← sourceMap.bool?
      outDir? := ← outDir.nullOr? Json.text?
      extension? := ← extension.nullOr? Json.text?
      ignore }
  | _ => none

def ofJson? : Json → Option Config
  | .array items => ofItems? items
  | value => value.members?.bind ofMembers?

/-- Takes a relative output directory from the directory of the settings file. -/
def within (config : Config) (path : String) : Config :=
  match config.outDir?, Path.parent? path with
  | some dir, some base => { config with outDir? := some (Path.join base dir) }
  | _, _ => config

/-- Reads the settings file at `path` from its text. -/
def ofText? (path text : String) : Option Config := do
  let value ← Json.parse? (Json.stripComments text.toList)
  return (← ofJson? value).within path

end Config

end Sigil
