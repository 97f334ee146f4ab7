import Sigil.Grammar.Declarations
import Sigil.Grammar.Markup
import Sigil.Token.Scan

namespace Sigil

namespace Rule

open Sigil.Parser

/-- The next declaration before the markup. -/
def leadingRound : Rule (Round Declaration) := do
  skipNewlines
  match ← kind with
  | .stop | .symbol .langle => return .stop
  | _ => return .more (← declaration)

/-- The next declaration behind the markup, of which there is no second. -/
def trailingRound : Rule (Round Declaration) := do
  skipNewlines
  match ← kind with
  | .stop => return .stop
  | .symbol .langle => fail .duplicateMarkup
  | _ => return .more (← declaration)

/-- A whole unit: declarations with one markup tree among them. -/
def unit (name : String) : Rule Component := do
  let leading ← many leadingRound
  unless (← kind) = .symbol .langle do fail .missingMarkup
  let tree ← markup
  endStatement
  let trailing ← many trailingRound
  return .ofDeclarations name (leading ++ trailing) tree

end Rule

namespace Component

/-- Reads a component of a given name from lexemes. -/
def ofLexemes (name : String) (ts : List Lexeme) : Except Fault Component :=
  (Rule.unit name).run' ts

/-- Reads a component of a given name from tokens. -/
def ofTokens (name : String) (ts : List Token) : Except Diagnostic Component :=
  let input := Input.ofTokens ts
  (ofLexemes name input.lexemes).mapError (·.locate input)

/-- Reads a component of a given name from a source. -/
def ofSource (name : String) (source : String) : Except Diagnostic Component := do
  ofTokens name (← Token.tokenize source)

end Component

end Sigil
