namespace Sigil

/-- A type as it is declared. A literal type is a simple one whose name keeps its quotes. -/
inductive TypeExpr where
  | simple (name : String)
  | array (element : String)
  | union (members : List TypeExpr)
  | generic (name : String) (params : List TypeExpr)
deriving BEq, Repr

namespace TypeExpr

def isArray : TypeExpr → Bool
  | array _ => true
  | generic name _ => name == "Array"
  | _ => false

end TypeExpr

end Sigil
