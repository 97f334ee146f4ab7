import Sigil.Grammar.Expressions
import Sigil.Grammar.Types

namespace Sigil

namespace Rule

open Sigil.Parser

def namePartRound : Rule (Round String) := do
  match ← get with
  | hyphen :: part :: rest =>
    if hyphen.kind = .symbol .minus ∧ hyphen.gap = .touching ∧
        part.kind = .ident ∧ part.gap = .touching then
      set rest
      return .more part.text
    return .stop
  | _ => return .stop

/-- A name made of identifiers that are joined by touching hyphens. -/
def hyphenated (expected : String) : Rule String := do
  let first ← ident expected
  return "-".intercalate (first :: (← many namePartRound))

def eventAttribute : Rule Attribute := do
  skip
  let name ← hyphenated "event name"
  expect (.symbol .eq)
  if (← kind) = .symbol .lbrace then return ⟨name, .inlineHandler (← braced)⟩
  return ⟨name, .handler (← ident "handler name")⟩

def plainAttribute : Rule Attribute := do
  let name ← hyphenated "attribute name"
  unless ← eat (.symbol .eq) do return ⟨name, .present⟩
  match ← kind with
  | .symbol .lbrace => return ⟨name, .expr (← braced)⟩
  | .string => return ⟨name, .text (← take .string "string").content⟩
  | _ => unexpected "'\x7b' or string"

def attributeRound : Rule (Round Attribute) := do
  skipNewlines
  match ← kind with
  | .symbol .rangle | .symbol .slash => return .stop
  | .symbol .atSign => return .more (← eventAttribute)
  | .ident => return .more (← plainAttribute)
  | _ => unexpected "attribute, '>' or '/>'"

/-- The closing tag of what was opened as `expected`; a fragment has no name. -/
def closingTag (expected : String) : Rule Unit := do
  expect (.symbol .langle)
  expect (.symbol .slash)
  let here ← get
  let found ← if (← kind) = .symbol .rangle then pure "" else hyphenated "closing tag name"
  unless found = expected do failAt here (.mismatchedTag expected found)
  expect (.symbol .rangle)

/-- Whether a lexeme of this kind can stand in a text. -/
def isText : Kind → Bool
  | .symbol .langle | .symbol .rangle | .symbol .lbrace | .symbol .rbrace => false
  | .newline | .stop => false
  | _ => true

/-- The next lexeme of a text, which goes on behind newlines if more text follows them. -/
def textRound : Rule (Round Lexeme) := do
  match (← get).dropWhile (·.kind = .newline) with
  | t :: rest =>
    if isText t.kind then
      set rest
      return .more t
    return .stop
  | [] => return .stop

/-- The blank that a gap before a lexeme leaves in a text. -/
def blankBefore (t : Lexeme) : String := if t.gap = .spaced then " " else ""

/-- The blank before the front, unless it starts a line or ends the input. -/
def blankAtFront : List Lexeme → String
  | [] => ""
  | t :: _ => if t.kind = .newline ∨ t.kind = .stop then "" else blankBefore t

/-- The spellings of a text's lexemes, with a blank for each gap between them. -/
def joinText : List Lexeme → String
  | [] => ""
  | t :: ts => ts.foldl (fun s t => s ++ blankBefore t ++ t.text) t.text

/-- A run of text. A gap to what stands before or behind it on the same line is kept as a blank. -/
def textRun (startsLine : Bool) : Rule Markup := do
  let before ← get
  let run ← many textRound
  let behind ← get
  let leading := if startsLine then "" else blankAtFront before
  return .text (leading ++ joinText run ++ blankAtFront behind)

def childRound (node : Rule Markup) (parent : String) : Rule (Round Markup) := do
  let startsLine := (← kind) = .newline
  skipNewlines
  match ← kind with
  | .stop => unexpected ("closing tag </" ++ parent ++ ">")
  | .symbol .langle =>
    if kindAt 1 (← get) = .symbol .slash then return .stop
    return .more (← node)
  | .symbol .lbrace => return .more (.interpolation (← braced))
  | .symbol .rangle | .symbol .rbrace => unexpected "markup"
  | _ => return .more (← textRun startsLine)

/-- What stands between an opening tag and its closing tag. -/
def children (node : Rule Markup) (parent : String) : Rule (List Markup) := do
  let nodes ← many (childRound node parent)
  closingTag parent
  return nodes

/-- An element behind the angle that opens it. -/
def element (node : Rule Markup) (line : Nat) : Rule (Element Markup) := do
  let tag ← hyphenated "tag name"
  let attributes ← many attributeRound
  if ← eat (.symbol .slash) then
    expect (.symbol .rangle)
    return ⟨tag, attributes, [], true, line⟩
  expect (.symbol .rangle)
  return ⟨tag, attributes, ← children node tag, false, line⟩

/-- A loop behind the angle that opens it, inside loops with the variables `outer`. -/
def eachLoop (node : List String → Rule Markup) (outer : List String) : Rule Markup := do
  let here ← get
  skip
  let binding ← ident "loop variable"
  let itemType ← typeAnnotation
  unless wordAt 0 "in" (← get) do unexpected "'in'"
  skip
  let collection ← ident "collection name"
  let source ← memberChain expression (.ident collection)
  expect (.symbol .rangle)
  skipNewlines
  let ts ← get
  unless kindAt 0 ts = .symbol .langle ∧ kindAt 1 ts = .ident ∧ ¬ wordAt 1 "each" ts do
    fail .invalidEachTemplate
  let line ← line
  skip
  let template ← element (node (outer ++ [binding])) line
  if let some name := outer.find? fun o => o != binding && Markup.elementReferences o template then
    failAt here (.outerLoopBinding name)
  skipNewlines
  let ts ← get
  unless kindAt 0 ts = .symbol .langle ∧ kindAt 1 ts = .symbol .slash do
    fail .invalidEachTemplate
  closingTag "each"
  return .each binding itemType source template

/-- A fragment, a loop or an element, inside loops with the variables `outer`. -/
def nodeStep (node : List String → Rule Markup) (outer : List String) : Rule Markup := do
  let isEach := wordAt 1 "each" (← get)
  let line ← line
  skip
  if ← eat (.symbol .rangle) then
    return .fragment (← children (node outer) "") line
  if isEach then eachLoop node outer
  else return .element (← element (node outer) line)

def node (outer : List String) : Rule Markup :=
  nestWith (fun _ => unexpected "markup") nodeStep outer

/-- The markup of a component, whose root is no loop. -/
def markup : Rule Markup := do
  let ts ← get
  if kindAt 1 ts ≠ .symbol .rangle ∧ wordAt 1 "each" ts then fail .eachAtRoot
  node []

end Rule

end Sigil
