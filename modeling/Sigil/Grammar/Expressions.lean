import Sigil.Component
import Sigil.Grammar.Rule

namespace Sigil

/-- What a dot adds to an expression. -/
inductive Suffix where
  | member (property : String)
  | method (name : String) (args : List Expr)

namespace Suffix

def apply (object : Expr) : Suffix → Expr
  | member property => .member object property
  | method name args => .method object name args

end Suffix

namespace Rule

open Sigil.Parser

/-- An entry of a list: an expression, or one that is spread. -/
def listItem (expr : Rule Expr) : Rule Expr := do
  if ← eat (.symbol .ellipsis) then return .spread (← expr) else expr

def listRound (expr : Rule Expr) (close : Symbol) : Rule (Round Expr) := do
  skipNewlines
  if ← eat (.symbol close) then return .stop
  let item ← listItem expr
  skipNewlines
  if ← eat (.symbol .comma) then return .more item
  expect (.symbol close)
  return .last item

/-- Expressions between two symbols, with commas between them and newlines anywhere. -/
def list (expr : Rule Expr) (opening close : Symbol) : Rule (List Expr) := do
  expect (.symbol opening)
  many (listRound expr close)

def suffixRound (expr : Rule Expr) : Rule (Round Suffix) := do
  if ← eat (.symbol .dot) then
    let name ← ident "property name"
    if (← kind) = .symbol .lparen then
      return .more (.method name (← list expr .lparen .rparen))
    return .more (.member name)
  return .stop

/-- The properties and methods that are read off `object`. -/
def memberChain (expr : Rule Expr) (object : Expr) : Rule Expr := do
  return (← many (suffixRound expr)).foldl Suffix.apply object

def binaryOp? : Kind → Option BinaryOp
  | .symbol .plus => some .add
  | .symbol .minus => some .sub
  | .symbol .star => some .mul
  | .symbol .slash => some .div
  | _ => none

/-- All of an expression whose first operand is `left`. -/
def operation (expr : Rule Expr) (left : Expr) : Rule Expr := do
  match binaryOp? (← kind) with
  | some op =>
    skip
    return .binary op left (← expr)
  | none => return left

def literalWord? : String → Option Literal
  | "true" => some (.boolean true)
  | "false" => some (.boolean false)
  | "null" => some .null
  | "undefined" => some .undefined
  | _ => none

/-- An expression that starts with an identifier. -/
def identExpr (expr : Rule Expr) : Rule Expr := do
  let name ← ident "expression"
  if let some literal := literalWord? name then
    return ← operation expr (.literal literal)
  match ← kind with
  | .symbol .fatArrow =>
    skip
    return .arrow [name] (← expr)
  | .symbol .plusPlus =>
    skip
    return .update name .increment none
  | .symbol .minusMinus =>
    skip
    return .update name .decrement none
  | .symbol .plusEq =>
    skip
    return .update name .addAssign (some (← expr))
  | .symbol .lparen =>
    let args ← list expr .lparen .rparen
    operation expr (← memberChain expr (.call name args))
  | _ => operation expr (← memberChain expr (.ident name))

def paramRound : Rule (Round String) := do
  let param ← ident "parameter name"
  if ← eat (.symbol .comma) then return .more param
  expect (.symbol .rparen)
  return .last param

/-- Parameters in parentheses. -/
def params : Rule (List String) := do
  expect (.symbol .lparen)
  if ← eat (.symbol .rparen) then return []
  many paramRound

/-- An arrow function whose parameters stand in parentheses. -/
def arrowExpr (expr : Rule Expr) : Rule Expr := do
  let params ← params
  expect (.symbol .fatArrow)
  return .arrow params (← expr)

def expressionStep (expr : Rule Expr) : Rule Expr := do
  match ← kind with
  | .string =>
    let t ← take .string "expression"
    operation expr (.literal (.string t.content))
  | .number =>
    let t ← take .number "expression"
    operation expr (.literal (.number t.text))
  | .symbol .minus =>
    if kindAt 1 (← get) = .number then
      skip
      let t ← take .number "expression"
      operation expr (.literal (.number ("-" ++ t.text)))
    else unexpected "expression"
  | .ident => identExpr expr
  | .symbol .lbracket =>
    let elements ← list expr .lbracket .rbracket
    operation expr (← memberChain expr (.array elements))
  | .symbol .lparen => arrowExpr expr
  | _ => unexpected "expression"

def expression : Rule Expr := nest (unexpected "expression") expressionStep

/-- An expression in braces. -/
def braced : Rule Expr := do
  expect (.symbol .lbrace)
  skipNewlines
  let e ← expression
  skipNewlines
  expect (.symbol .rbrace)
  return e

/-- A key of a block: an identifier, or what a string stands for. -/
def key : Rule String := do
  match ← kind with
  | .ident => ident "key"
  | .string => return (← take .string "key").content
  | _ => unexpected "key"

def entryRound : Rule (Round KeyedEntry) := do
  skipNewlines
  if ← eat (.symbol .rbrace) then return .stop
  let key ← key
  expect (.symbol .colon)
  skipNewlines
  let value ← expression
  skipNewlines
  let _ ← eat (.symbol .comma)
  return .more ⟨key, value⟩

/-- Keyed expressions in braces, with commas or newlines between them. -/
def keyedBlock : Rule (List KeyedEntry) := do
  expect (.symbol .lbrace)
  many entryRound

end Rule

end Sigil
