import Sigil.Expr

namespace Sigil

namespace Expr

/-- Adds a name behind those found, unless an arrow binds it or it has been found. -/
def note (bound found : List String) (name : String) : List String :=
  if bound.contains name || found.contains name then found else found ++ [name]

mutual

/-- The names in `found`, and behind them those that are read where `bound` are bound. -/
def collect (bound found : List String) : Expr → List String
  | literal _ => found
  | ident name => note bound found name
  | binary _ left right => right.collect bound (left.collect bound found)
  | update target _ none => note bound found target
  | update target _ (some value) => value.collect bound (note bound found target)
  | member object _ => object.collect bound found
  | method object _ args => collectAll bound (object.collect bound found) args
  | call callee args => collectAll bound (note bound found callee) args
  | arrow params body => body.collect (bound ++ params) found
  | array elements => collectAll bound found elements
  | spread inner => inner.collect bound found

def collectAll (bound found : List String) : List Expr → List String
  | [] => found
  | e :: es => collectAll bound (e.collect bound found) es

end

/-- The names that an expression depends on, each once, in the order they are first read. -/
def dependencies (e : Expr) : List String := e.collect [] []

end Expr

end Sigil
