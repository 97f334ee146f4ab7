import Sigil.Expr
import Sigil.Names
import Sigil.Text.Quoted

namespace Sigil

/-- Joins texts with `separator` between them. -/
def joinWith (separator : String) : List String → String
  | [] => ""
  | [s] => s
  | s :: ss => s ++ separator ++ joinWith separator ss

/-- A name as it is written where `items` are variables of loops. -/
def renderName (items : List String) (name : String) : String :=
  if items.contains name then Names.item else name

/-- The loop variables that the parameters of an arrow leave visible. -/
def shadow (items params : List String) : List String := items.filter (!params.contains ·)

def renderParams (params : List String) : String := "(" ++ joinWith ", " params ++ ")"

namespace Literal

def render : Literal → String
  | string s => quote s
  | number spelling => spelling
  | boolean b => if b then "true" else "false"
  | null => "null"
  | undefined => "undefined"

end Literal

namespace Expr

mutual

/-- The text of an expression where `items` are variables of loops. -/
def render (items : List String) : Expr → String
  | literal l => l.render
  | ident name => renderName items name
  | binary op left right => left.render items ++ " " ++ op.text ++ " " ++ right.render items
  | update target op none => renderName items target ++ op.text
  | update target op (some value) =>
    renderName items target ++ " " ++ op.text ++ " " ++ value.render items
  | member object property => object.render items ++ "." ++ property
  | method object name args =>
    object.render items ++ "." ++ name ++ "(" ++ joinWith ", " (renderAll items args) ++ ")"
  | call callee args =>
    renderName items callee ++ "(" ++ joinWith ", " (renderAll items args) ++ ")"
  | arrow params body => renderParams params ++ " => " ++ body.render (shadow items params)
  | array elements => "[" ++ joinWith ", " (renderAll items elements) ++ "]"
  | spread inner => "..." ++ inner.render items

def renderAll (items : List String) : List Expr → List String
  | [] => []
  | e :: es => e.render items :: renderAll items es

end

end Expr

end Sigil
