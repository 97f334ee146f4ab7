import Sigil.Grammar.Rule
import Sigil.TypeExpr

namespace Sigil

namespace Rule

open Sigil.Parser

/-- A type's own name. A string names itself in single quotes. -/
def typeName : Rule String := do
  match ← kind with
  | .ident => ident "type"
  | .string => return "'" ++ (← take .string "type").content ++ "'"
  | _ => unexpected "type"

/-- A further item of a list that goes on behind the symbol `separator`. -/
def further {α : Type} (separator : Symbol) (item : Rule α) : Rule (Round α) := do
  if ← eat (.symbol separator) then return .more (← item) else return .stop

/-- The array of a type. -/
def arrayOf : TypeExpr → TypeExpr
  | .simple name => .array name
  | t => .generic "Array" [t]

/-- The parameters in angles behind a type's name, if there are any. -/
def typeParams (type : Rule TypeExpr) : Rule (List TypeExpr) := do
  if ← eat (.symbol .langle) then
    let first ← type
    let others ← many (further .comma type)
    expect (.symbol .rangle)
    return first :: others
  return []

/-- A name with its parameters, or an array of it. -/
def primaryType (type : Rule TypeExpr) : Rule TypeExpr := do
  let name ← typeName
  let params ← typeParams type
  let base := if params.isEmpty then .simple name else .generic name params
  let ts ← get
  if kindAt 0 ts = .symbol .lbracket ∧ kindAt 1 ts = .symbol .rbracket then
    skip
    skip
    return arrayOf base
  return base

/-- One type, or several joined by bars. -/
def unionType (type : Rule TypeExpr) : Rule TypeExpr := do
  let first ← primaryType type
  let others ← many (further .pipe (primaryType type))
  return if others.isEmpty then first else .union (first :: others)

def type : Rule TypeExpr := nest (unexpected "type") unionType

/-- An optional type behind a double colon. -/
def typeAnnotation : Rule (Option TypeExpr) := do
  if ← eat (.symbol .colonColon) then return some (← type) else return none

end Rule

end Sigil
