import Sigil.Path
import Sigil.Text.Numeric
import Sigil.Text.UpperCase

namespace Sigil

namespace Names

/-- The variable of every loop in the output. -/
def item : String := "__item"

/-- The index of every loop in the output. -/
def index : String := "__index"

/-- The name of a component when none can be derived. -/
def fallbackComponent : String := "Component"

/-- The tags that have a short form. -/
def tagAliases : List (String × String) :=
  [("btn", "button"), ("inp", "input"), ("lbl", "label"), ("txt", "span"), ("sel", "select"),
    ("opt", "option"), ("area", "textarea")]

def eventAttributes : List (String × String) :=
  [("click", "onClick"), ("change", "onChange"), ("submit", "onSubmit")]

def attributeAliases : List (String × String) := [("class", "className"), ("for", "htmlFor")]

/-- A name with its first character in upper case. -/
def capitalize (name : String) : String :=
  match name.toList with
  | [] => ""
  | c :: cs => String.ofList (upperCase c ++ cs)

def setter (name : String) : String := "set" ++ capitalize name

def reducerFunction (name : String) : String := name ++ "Reducer"

def dispatch (name : String) : String := "dispatch" ++ capitalize name

def pending (name : String) : String := "isPending" ++ capitalize name

def transitionStarter (name : String) : String := "start" ++ capitalize name ++ "Transition"

def optimisticAdder (name : String) : String := "add" ++ capitalize name

def action (name : String) : String := name ++ "Action"

def tag (name : String) : String := (tagAliases.lookup name).getD name

def attributeName (name : String) : String := (attributeAliases.lookup name).getD name

/-- Joins the words of a name: hyphens go and the character behind each is put in upper case, as is
the first if `upper` holds; all that is neither letter nor number is left out. -/
def joinWords (upper : Bool) : List Char → List Char
  | [] => []
  | c :: cs =>
    if c = '-' then joinWords true cs
    else if isAlphanumeric c then
      if upper then upperCase c ++ joinWords false cs else c :: joinWords false cs
    else joinWords upper cs

def pascalCase (name : String) : String := String.ofList (joinWords true name.toList)

def eventAttribute (event : String) : String :=
  (eventAttributes.lookup event).getD ("on" ++ pascalCase event)

/-- The component name that a path's stem gives from its first letter on. -/
def componentFromPath (path : String) : String :=
  let stem := ((Path.stem? path).getD "").toList.dropWhile (!isAlphabetic ·)
  match joinWords true stem with
  | [] => fallbackComponent
  | cs => String.ofList cs

end Names

end Sigil
