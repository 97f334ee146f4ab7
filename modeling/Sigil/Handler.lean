import Sigil.Component
import Sigil.Expr.Render

namespace Sigil

namespace Component

/-- The call of a setter that an expression stands for when it updates a state. -/
def updateCall? (c : Component) (items : List String) : Expr → Option String
  | .update target op value? =>
    if c.isState target then
      let current := renderName items target
      let updated :=
        match op, value? with
        | .increment, _ => current ++ " + 1"
        | .decrement, _ => current ++ " - 1"
        | .addAssign, some value => current ++ " + " ++ value.render items
        | .addAssign, none => current
      some (Names.setter target ++ "(" ++ updated ++ ")")
    else none
  | .method (.ident target) "push" args =>
    if (c.state? target).any (·.isCollection) then
      let elements := ("..." ++ renderName items target) :: Expr.renderAll items args
      some (Names.setter target ++ "([" ++ joinWith ", " elements ++ "])")
    else none
  | _ => none

/-- An expression with its update of a state, if it is one, written as a call. -/
def renderUpdate (c : Component) (items : List String) (e : Expr) : String :=
  (c.updateCall? items e).getD (e.render items)

/-- An expression as a function: an arrow keeps its parameters, all else is given none. -/
def renderHandler (c : Component) (items : List String) : Expr → String
  | .arrow params body => renderParams params ++ " => " ++ c.renderUpdate (shadow items params) body
  | e => "() => " ++ c.renderUpdate items e

/-- An expression as a statement: of an arrow without parameters it is the body. -/
def renderStatement (c : Component) : Expr → String
  | .arrow [] body => c.renderStatement body
  | e => c.renderUpdate [] e

end Component

end Sigil
