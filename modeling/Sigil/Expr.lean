namespace Sigil

/-- A literal; a number keeps its spelling, its minus sign included. -/
inductive Literal where
  | string (s : String)
  | number (spelling : String)
  | boolean (b : Bool)
  | null
  | undefined
deriving DecidableEq, Repr

inductive BinaryOp where
  | add | sub | mul | div
deriving DecidableEq, Repr

namespace BinaryOp

def text : BinaryOp → String
  | add => "+"
  | sub => "-"
  | mul => "*"
  | div => "/"

end BinaryOp

inductive UpdateOp where
  | increment | decrement | addAssign
deriving DecidableEq, Repr

namespace UpdateOp

def text : UpdateOp → String
  | increment => "++"
  | decrement => "--"
  | addAssign => "+="

end UpdateOp

/-- An expression. Binary operators have no precedence: the right operand is all that follows. -/
inductive Expr where
  | literal (l : Literal)
  | ident (name : String)
  | binary (op : BinaryOp) (left right : Expr)
  | update (target : String) (op : UpdateOp) (value : Option Expr)
  | member (object : Expr) (property : String)
  | method (object : Expr) (name : String) (args : List Expr)
  | call (callee : String) (args : List Expr)
  | arrow (params : List String) (body : Expr)
  | array (elements : List Expr)
  | spread (inner : Expr)
deriving BEq, Repr

namespace Expr

def ident? : Expr → Option String
  | ident name => some name
  | _ => none

def isArray : Expr → Bool
  | array _ => true
  | _ => false

mutual

/-- Whether `name` is read in the expression. The parameters of an arrow hide it in its body. -/
def references (name : String) : Expr → Bool
  | literal _ => false
  | ident n => n == name
  | binary _ left right => left.references name || right.references name
  | update target _ none => target == name
  | update target _ (some value) => target == name || value.references name
  | member object _ => object.references name
  | method object _ args => object.references name || anyReferences name args
  | call callee args => callee == name || anyReferences name args
  | arrow params body => !params.contains name && body.references name
  | array elements => anyReferences name elements
  | spread inner => inner.references name

def anyReferences (name : String) : List Expr → Bool
  | [] => false
  | e :: es => e.references name || anyReferences name es

end

end Expr

end Sigil
