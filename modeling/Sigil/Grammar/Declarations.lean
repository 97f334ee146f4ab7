import Sigil.Grammar.Expressions
import Sigil.Grammar.Types

namespace Sigil

namespace Rule

/-- How messages count the entries of a list. -/
def entryCount (n : Nat) : String := toString n ++ if n = 1 then " entry" else " entries"

def defaultValue : Rule (Option Expr) := do
  if ← eat (.symbol .eq) then return some (← expression) else return none

/-- The expression behind an equals sign. -/
def definition : Rule Expr := do
  expect (.symbol .eq)
  expression

/-- Two expressions in braces. -/
def bracedPair : Rule (Expr × Expr) := do
  let here ← get
  match ← list expression .lbrace .rbrace with
  | [first, second] => return (first, second)
  | entries => failAt here (.unexpectedToken (entryCount entries.length) "2 entries")

def prop (line : Nat) : Rule PropDecl := do
  let name ← ident "prop name"
  let type? ← typeAnnotation
  return ⟨name, type?, ← defaultValue, line⟩

def reducer (name : String) (line : Nat) : Rule ReducerDecl := do
  let type? ← typeAnnotation
  expect (.symbol .eq)
  expect (.symbol .lbrace)
  skipNewlines
  let initial ← expression
  skipNewlines
  let _ ← eat (.symbol .comma)
  skipNewlines
  unless (← kind) = .symbol .lbrace do fail (.missingActionBlock name)
  let actions ← keyedBlock
  skipNewlines
  let _ ← eat (.symbol .comma)
  skipNewlines
  expect (.symbol .rbrace)
  return ⟨name, type?, initial, actions, line⟩

def optimistic (name : String) (line : Nat) : Rule OptimisticDecl := do
  let type? ← typeAnnotation
  expect (.symbol .eq)
  let (state, update) ← bracedPair
  return ⟨name, type?, state, update, line⟩

/-- A state, or one of the forms that a modifier makes of it. -/
def state (line : Nat) : Rule Declaration := do
  let name ← ident "state name"
  if ← eat (.symbol .colon) then
    let here ← get
    match ← ident "state modifier" with
    | "reducer" => return .reducer (← reducer name line)
    | "transition" => return .transition ⟨name, line⟩
    | "deferred" =>
      let type? ← typeAnnotation
      return .deferred ⟨name, type?, ← definition, line⟩
    | "optimistic" => return .optimistic (← optimistic name line)
    | modifier => failAt here (.unknownModifier modifier)
  let type? ← typeAnnotation
  return .state ⟨name, type?, ← definition, line⟩

def memo (line : Nat) : Rule MemoDecl := do
  let name ← ident "memo name"
  let type? ← typeAnnotation
  return ⟨name, type?, ← definition, line⟩

/-- Dependencies that are listed in brackets. -/
def explicitDeps : Rule (Option (List Expr)) := do
  if (← kind) = .symbol .lbracket then return some (← list expression .lbracket .rbracket)
  return none

def effect (line : Nat) : Rule EffectDecl := do
  let deps? ← explicitDeps
  return ⟨deps?, ← expression, line⟩

def event (line : Nat) : Rule EventDecl := do
  let name ← ident "event name"
  return ⟨name, ← definition, line⟩

def callback (line : Nat) : Rule CallbackDecl := do
  let name ← ident "callback name"
  return ⟨name, ← definition, line⟩

def handle (line : Nat) : Rule HandleDecl := do
  let name ← ident "ref name"
  expect (.symbol .eq)
  return ⟨name, ← keyedBlock, line⟩

def ref (line : Nat) : Rule RefDecl := do
  let name ← ident "ref name"
  let type? ← typeAnnotation
  return ⟨name, type?, ← defaultValue, line⟩

def context (line : Nat) : Rule ContextDecl := do
  let name ← ident "context name"
  let type? ← typeAnnotation
  expect (.symbol .eq)
  return ⟨name, type?, ← ident "context object", line⟩

def store (line : Nat) : Rule StoreDecl := do
  let name ← ident "store name"
  let type? ← typeAnnotation
  expect (.symbol .eq)
  let here ← get
  match ← list expression .lbrace .rbrace with
  | [subscribe, snapshot] => return ⟨name, type?, subscribe, snapshot, none, line⟩
  | [subscribe, snapshot, server] => return ⟨name, type?, subscribe, snapshot, some server, line⟩
  | entries => failAt here (.unexpectedToken (entryCount entries.length) "2 or 3 entries")

def action (line : Nat) : Rule ActionDecl := do
  let name ← ident "action name"
  let type? ← typeAnnotation
  expect (.symbol .eq)
  let (action, initial) ← bracedPair
  return ⟨name, type?, action, initial, line⟩

/-- The rule for what follows the first lexeme of a declaration on a line. -/
def declarationBody? (line : Nat) (first : Lexeme) : Option (Rule Declaration) :=
  match first.kind with
  | .symbol .dollar => some (.prop <$> prop line)
  | .symbol .atSign => some (state line)
  | .symbol .percent => some (.memo <$> memo line)
  | .symbol .tilde => some (.effect <$> effect line)
  | .symbol .tildeTilde => some (.layoutEffect <$> effect line)
  | .symbol .bang => some (.event <$> event line)
  | .symbol .amp => some (.callback <$> callback line)
  | .symbol .caret => some (.handle <$> handle line)
  | .symbol .hash => some (.ref <$> ref line)
  | .symbol .question => some (.context <$> context line)
  | .symbol .hashHash => some (do return .id ⟨← ident "id name", line⟩)
  | .ident =>
    if first.isWord "sync" then some (.store <$> store line)
    else if first.isWord "action" then some (.action <$> action line)
    else none
  | _ => none

/-- A declaration up to the end of its statement. -/
def declaration : Rule Declaration := do
  let ts ← get
  match ts.head?.bind fun first => declarationBody? first.line first with
  | some body =>
    skip
    let d ← body
    endStatement
    return d
  | none => fail (.unexpectedStatement (found ts))

end Rule

end Sigil
