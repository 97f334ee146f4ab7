import Sigil.Expr
import Sigil.TypeExpr

namespace Sigil

/-- What an attribute is set to: an expression, a text, nothing but its presence, or a handler of an
event, given by name or in place. -/
inductive AttributeValue where
  | expr (e : Expr)
  | text (s : String)
  | present
  | handler (name : String)
  | inlineHandler (e : Expr)
deriving BEq, Repr

namespace AttributeValue

def references (name : String) : AttributeValue → Bool
  | expr e => e.references name
  | text _ => false
  | present => false
  | handler h => h == name
  | inlineHandler e => e.references name

end AttributeValue

structure Attribute where
  name : String
  value : AttributeValue
deriving BEq, Repr

/-- An element with its tag as written. -/
structure Element (Child : Type) where
  tag : String
  attributes : List Attribute
  children : List Child
  selfClosing : Bool
  line : Nat
deriving BEq, Repr

/-- A markup tree. A loop repeats one element for each item of its source. -/
inductive Markup where
  | element (e : Element Markup)
  | fragment (children : List Markup) (line : Nat)
  | interpolation (e : Expr)
  | text (s : String)
  | each (binding : String) (itemType : Option TypeExpr) (source : Expr) (template : Element Markup)
deriving BEq, Repr

namespace Markup

/-- The line an element or a fragment starts on. -/
def line? : Markup → Option Nat
  | element e => some e.line
  | fragment _ line => some line
  | _ => none

mutual

/-- Whether an expression or a named handler in the tree reads `name`. A loop's variable hides it in
the loop's template. -/
def references (name : String) : Markup → Bool
  | element e => elementReferences name e
  | fragment children _ => anyReferences name children
  | interpolation e => e.references name
  | text _ => false
  | each binding _ source template =>
    source.references name || (binding != name && elementReferences name template)

def elementReferences (name : String) : Element Markup → Bool
  | ⟨_, attributes, children, _, _⟩ =>
    attributes.any (·.value.references name) || anyReferences name children

def anyReferences (name : String) : List Markup → Bool
  | [] => false
  | m :: ms => m.references name || anyReferences name ms

end

end Markup

end Sigil
