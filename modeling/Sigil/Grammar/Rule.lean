import Sigil.Lexeme
import Sigil.Parser

namespace Sigil

/-- A rule of the grammar reads a value off the front of the lexemes. -/
abbrev Rule := Parser Lexeme Fault

namespace Rule

variable {α : Type}

/-- Fails where the lexemes `here` are left. -/
def failAt (here : List Lexeme) (cause : Cause) : Rule α := throw ⟨cause, here.length⟩

def fail (cause : Cause) : Rule α := do failAt (← get) cause

/-- How messages call what stands at the front. -/
def found : List Lexeme → String
  | [] => Kind.stop.name
  | t :: _ => t.describe

def unexpected (expected : String) : Rule α := do
  fail (.unexpectedToken (found (← get)) expected)

/-- The kind of the lexeme `n` behind the front; past the end it is a stop. -/
def kindAt (n : Nat) (ts : List Lexeme) : Kind := (ts[n]?.map (·.kind)).getD .stop

/-- Whether the lexeme `n` behind the front stands for a word. -/
def wordAt (n : Nat) (word : String) (ts : List Lexeme) : Bool := ts[n]?.any (·.isWord word)

/-- The kind of the front. -/
def kind : Rule Kind := do return kindAt 0 (← get)

/-- The line of the front. -/
def line : Rule Nat := do return ((← get).head?.map (·.line)).getD 0

/-- Moves behind the front. -/
def skip : Rule Unit := modify List.tail

/-- Moves behind the front if it is of a kind, and tells whether it is. -/
def eat (k : Kind) : Rule Bool := do
  if (← kind) = k then
    skip
    return true
  return false

def expect (k : Kind) : Rule Unit := do
  unless ← eat k do unexpected k.name

/-- Reads a lexeme of a kind. -/
def take (k : Kind) (expected : String) : Rule Lexeme := do
  match ← get with
  | [] => unexpected expected
  | t :: ts =>
    if t.kind = k then
      set ts
      return t
    unexpected expected

/-- Reads an identifier's spelling. -/
def ident (expected : String) : Rule String := return (← take .ident expected).text

def skipNewlines : Rule Unit := modify (List.dropWhile (·.kind = .newline))

/-- A statement ends with its line or with the input. -/
def endStatement : Rule Unit := do
  match ← kind with
  | .newline => skip
  | .stop => return ()
  | _ => unexpected "end of statement"

end Rule

end Sigil
