import Sigil.Grammar.Unit
import Sigil.Module
import Sigil.PositionMap

namespace Sigil

/-- A module and the map of its lines, if one was asked for. -/
structure Output where
  code : String
  map : Option PositionMap
deriving DecidableEq, Repr

/-- How a component is written with types: whether its lines are mapped, mappings that count before
those, and the name of the generated file. -/
structure TypedOptions where
  mapLines : Bool := false
  hints : List (Nat × Nat) := []
  fileName : Option String := none

namespace Component

/-- Writes a component with types, and maps its lines to those of `source`. -/
def typedOutput (c : Component) (source : String) (options : TypedOptions) : Output :=
  let derived := if options.mapLines then c.lineMappings .typed else []
  let file := options.fileName.getD (c.name ++ ".tsx")
  { code := c.code .typed
    map :=
      if options.mapLines ∨ options.hints ≠ [] then
        some (.ofMappings file source (options.hints ++ derived))
      else none }

end Component

/-- How a source is compiled. Only the typed dialect has a map. -/
structure CompileOptions where
  name : String := defaultComponentName
  dialect : Dialect := .plain
  mapLines : Bool := false
  source : String := "component.hks"
  fileName : Option String := none

namespace Component

def output (c : Component) (options : CompileOptions) : Output :=
  match options.dialect with
  | .plain => ⟨c.code .plain, none⟩
  | .typed => c.typedOutput options.source ⟨options.mapLines, [], options.fileName⟩

end Component

/-- Compiles a source. One that is refused gives no output. -/
def compile (source : String) (options : CompileOptions) : Except Diagnostic Output := do
  return (← Component.ofSource options.name source).output options

end Sigil
