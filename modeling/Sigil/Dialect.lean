import Sigil.Component
import Sigil.Expr.Render

namespace Sigil

/-- The two forms of the output: without types and with them. -/
inductive Dialect where
  | plain
  | typed
deriving DecidableEq, Repr

/-- The type names that are spelled differently in the output. -/
def typeNames : List (String × String) :=
  [("str", "string"), ("num", "number"), ("int", "number"), ("float", "number"),
    ("bool", "boolean")]

def typeName (name : String) : String := (typeNames.lookup name).getD name

namespace TypeExpr

mutual

/-- The text of a type in the output. -/
def render : TypeExpr → String
  | simple name => typeName name
  | array element => typeName element ++ "[]"
  | union members => joinWith " | " (renderAll members)
  | generic name params => typeName name ++ "<" ++ joinWith ", " (renderAll params) ++ ">"

def renderAll : List TypeExpr → List String
  | [] => []
  | t :: ts => t.render :: renderAll ts

end

/-- The text of a type that may be missing, which then is any type. -/
def renderOrAny (type? : Option TypeExpr) : String := (type?.map render).getD "any"

end TypeExpr

/-- The interface of a form element in the browser. -/
def elementInterface (tag : String) : String :=
  if tag = "textarea" then "HTMLTextAreaElement"
  else if tag = "select" then "HTMLSelectElement"
  else "HTMLInputElement"

namespace Dialect

def extension : Dialect → String
  | plain => "jsx"
  | typed => "tsx"

/-- The type argument of a call. -/
def typeArgs : Dialect → Option TypeExpr → String
  | typed, some t => "<" ++ t.render ++ ">"
  | _, _ => ""

/-- The type behind the parameter that holds the props of the component called `name`. -/
def propsAnnotation (d : Dialect) (name : String) : String :=
  match d with
  | plain => ""
  | typed => ": " ++ name ++ "Props"

/-- The field of a prop in the interface of the props. -/
def propField (p : PropDecl) : String :=
  "  " ++ p.name ++ (if p.default?.isSome then "?" else "") ++ ": " ++
    TypeExpr.renderOrAny p.type? ++ ";"

/-- The first line of a reducer's function. -/
def reducerSignature (d : Dialect) (r : ReducerDecl) : String :=
  match d with
  | plain => "function " ++ Names.reducerFunction r.name ++ "(state, action) \x7b"
  | typed =>
    let type := TypeExpr.renderOrAny r.type?
    "function " ++ Names.reducerFunction r.name ++ "(state: " ++ type ++
      ", action: \x7b type: string; payload?: any \x7d): " ++ type ++ " \x7b"

/-- The parameter of the handler that a bound value of an element has. -/
def changeParam (d : Dialect) (tag : String) : String :=
  match d with
  | plain => "e"
  | typed => "e: React.ChangeEvent<" ++ elementInterface tag ++ ">"

/-- The parameters of the function that a loop maps over its source. -/
def eachParams : Dialect → Option TypeExpr → String
  | typed, some t => "(" ++ Names.item ++ ": " ++ t.render ++ ", " ++ Names.index ++ ": number)"
  | _, _ => "(" ++ Names.item ++ ", " ++ Names.index ++ ")"

end Dialect

end Sigil
