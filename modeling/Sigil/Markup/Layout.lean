import Sigil.Dialect
import Sigil.Handler

namespace Sigil

def indent (depth : Nat) : String := String.ofList (List.replicate (2 * depth) ' ')

/-- A text in braces. -/
def inBraces (s : String) : String := "\x7b" ++ s ++ "\x7d"

namespace Markup

/-- Whether a node can have lines of its own. -/
def isNested : Markup → Bool
  | element _ => true
  | fragment _ _ => true
  | each _ _ _ _ => true
  | _ => false

def isText : Markup → Bool
  | text _ => true
  | _ => false

/-- Whether children are written one on a line: some of them can be, and none is text, whose blanks
would then change. -/
def useBlock (children : List Markup) : Bool := children.any isNested && !children.any isText

/-- Whether an element is written on one line. -/
def onOneLine (e : Element Markup) : Bool := e.selfClosing || !useBlock e.children

end Markup

namespace Attribute

/-- The text of an attribute of an element with the tag `tag`. -/
def render (d : Dialect) (c : Component) (items : List String) (tag : String) (a : Attribute) :
    String :=
  match a.value with
  | .handler name => Names.eventAttribute a.name ++ "=" ++ inBraces (renderName items name)
  | .inlineHandler e => Names.eventAttribute a.name ++ "=" ++ inBraces (c.renderHandler items e)
  | .expr e =>
    if a.name = "val" then
      match e with
      | .ident name =>
        "value=" ++ inBraces (renderName items name) ++ " onChange=" ++
          inBraces ("(" ++ d.changeParam tag ++ ") => " ++ Names.setter name ++ "(e.target.value)")
      | e => "value=" ++ inBraces (e.render items)
    else Names.attributeName a.name ++ "=" ++ inBraces (e.render items)
  | .text s =>
    if s.toList.contains '"' then Names.attributeName a.name ++ "=" ++ inBraces (quote s)
    else Names.attributeName a.name ++ "=\"" ++ s ++ "\""
  | .present => Names.attributeName a.name

end Attribute

/-- An opening tag without the angle that ends it. A keyed element is repeated by a loop. -/
def openTag (d : Dialect) (c : Component) (items : List String) (keyed : Bool) (tag : String)
    (attributes : List Attribute) : String :=
  let key := if keyed then " key=" ++ inBraces Names.index else ""
  "<" ++ tag ++ key ++ joinWith "" (attributes.map fun a => " " ++ a.render d c items tag)

/-- What a loop writes before its template. -/
def loopHead (d : Dialect) (items : List String) (itemType : Option TypeExpr) (source : Expr) :
    String :=
  "\x7b" ++ source.render items ++ ".map(" ++ d.eachParams itemType ++ " => "

namespace Markup

mutual

/-- The text of a tree on one line. -/
def inline (d : Dialect) (c : Component) (items : List String) : Markup → String
  | element e => inlineElement d c items false e
  | fragment children _ => "<>" ++ inlineAll d c items children ++ "</>"
  | interpolation e => inBraces (e.render items)
  | text s => escapeText s
  | each binding itemType source template =>
    loopHead d items itemType source ++
      inlineElement d c (items ++ [binding]) true template ++ ")\x7d"

def inlineElement (d : Dialect) (c : Component) (items : List String) (keyed : Bool) :
    Element Markup → String
  | ⟨tag, attributes, children, selfClosing, _⟩ =>
    let opening := openTag d c items keyed (Names.tag tag) attributes
    if selfClosing then opening ++ " />"
    else opening ++ ">" ++ inlineAll d c items children ++ "</" ++ Names.tag tag ++ ">"

def inlineAll (d : Dialect) (c : Component) (items : List String) : List Markup → String
  | [] => ""
  | m :: ms => inline d c items m ++ inlineAll d c items ms

end

mutual

/-- The lines of a tree, indented by `depth` steps. -/
def block (d : Dialect) (c : Component) (depth : Nat) (items : List String) : Markup → List String
  | element e => blockElement d c depth items false e
  | fragment children line =>
    if useBlock children then
      [indent depth ++ "<>"] ++ blockAll d c (depth + 1) items children ++ [indent depth ++ "</>"]
    else [indent depth ++ inline d c items (fragment children line)]
  | each binding itemType source template =>
    let head := indent depth ++ loopHead d items itemType source
    if onOneLine template then
      [head ++ inlineElement d c (items ++ [binding]) true template ++ ")\x7d"]
    else
      [head ++ "("] ++ blockElement d c (depth + 1) (items ++ [binding]) true template ++
        [indent depth ++ "))\x7d"]
  | m => [indent depth ++ inline d c items m]

def blockElement (d : Dialect) (c : Component) (depth : Nat) (items : List String) (keyed : Bool) :
    Element Markup → List String
  | ⟨tag, attributes, children, selfClosing, line⟩ =>
    if onOneLine ⟨tag, attributes, children, selfClosing, line⟩ then
      [indent depth ++ inlineElement d c items keyed ⟨tag, attributes, children, selfClosing, line⟩]
    else
      [indent depth ++ openTag d c items keyed (Names.tag tag) attributes ++ ">"] ++
        blockAll d c (depth + 1) items children ++ [indent depth ++ "</" ++ Names.tag tag ++ ">"]

def blockAll (d : Dialect) (c : Component) (depth : Nat) (items : List String) :
    List Markup → List String
  | [] => []
  | m :: ms => block d c depth items m ++ blockAll d c depth items ms

end

end Markup

end Sigil
