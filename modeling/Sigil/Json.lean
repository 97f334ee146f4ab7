import Sigil.Json.String
import Sigil.Parser

namespace Sigil

/-- A JSON value, with its strings and numbers as they are written. -/
inductive Json where
  | null
  | bool (b : Bool)
  | number (written : List Char)
  | string (written : List Char)
  | array (items : List Json)
  | object (members : List (List Char × Json))
deriving Inhabited, Repr

namespace Json

abbrev Reader := Parser Char Unit

def fail {α : Type} : Reader α := throw ()

def isBlank (c : Char) : Bool := c = ' ' || c = '\n' || c = '\t' || c = '\r'

def blanks : Reader Unit := modify (·.dropWhile isBlank)

/-- Reads a character, if it is next behind blanks. -/
def accept (c : Char) : Reader Bool := do
  blanks
  match ← get with
  | d :: rest => if d = c then set rest; return true else return false
  | [] => return false

def expect (c : Char) : Reader Unit := do
  unless ← accept c do fail

/-- Reads a word letter by letter. -/
def word : List Char → Reader Unit
  | [] => return ()
  | c :: cs => do
    match ← get with
    | d :: rest => if d = c then set rest; word cs else fail
    | [] => fail

def digits : Reader (List Char) := do
  let input ← get
  set (input.dropWhile Char.isDigit)
  return input.takeWhile Char.isDigit

def someDigits : Reader (List Char) := do
  match ← digits with
  | [] => fail
  | ds => return ds

/-- Reads a character that the test takes. -/
def optionalChar (test : Char → Bool) : Reader (List Char) := do
  match ← get with
  | c :: rest => if test c then set rest; return [c] else return []
  | [] => return []

/-- The digits before a point: a zero stands alone. -/
def whole : Reader (List Char) := do
  match ← optionalChar (· = '0') with
  | [] => someDigits
  | zero => return zero

def fraction : Reader (List Char) := do
  match ← optionalChar (· = '.') with
  | [] => return []
  | point => return point ++ (← someDigits)

def exponent : Reader (List Char) := do
  match ← optionalChar (fun c => c = 'e' || c = 'E') with
  | [] => return []
  | mark =>
    let sign ← optionalChar fun c => c = '+' || c = '-'
    return mark ++ sign ++ (← someDigits)

def readNumber : Reader Json := do
  let sign ← optionalChar (· = '-')
  let whole ← whole
  let fraction ← fraction
  return .number (sign ++ whole ++ fraction ++ (← exponent))

/-- Reads the rest of a string behind its opening quote. -/
def stringRest : Reader (List Char) := do
  match readString? (← get) with
  | some (written, rest) => set rest; return written
  | none => fail

/-- Reads items with commas between them up to `close`. -/
def separated {α : Type} (close : Char) (item : Reader α) : Reader (List α) := do
  if ← accept close then return []
  Parser.many do
    let a ← item
    if ← accept ',' then return .more a
    expect close
    return .last a

def member (value : Reader Json) : Reader (List Char × Json) := do
  expect '"'
  let key ← stringRest
  expect ':'
  return (key, ← value)

def readValue : Reader Json :=
  Parser.nest fail fun value => do
    blanks
    match ← get with
    | '"' :: rest => set rest; return .string (← stringRest)
    | '[' :: rest => set rest; return .array (← separated ']' value)
    | '\x7b' :: rest => set rest; return .object (← separated '\x7d' (member value))
    | 't' :: rest => set rest; word ['r', 'u', 'e']; return .bool true
    | 'f' :: rest => set rest; word ['a', 'l', 's', 'e']; return .bool false
    | 'n' :: rest => set rest; word ['u', 'l', 'l']; return .null
    | _ => readNumber

/-- The value a document holds, with nothing but blanks around it. -/
def parse? (text : List Char) : Option Json :=
  match (do let value ← readValue; blanks; return value : Reader Json) text with
  | .ok (value, []) => some value
  | _ => none

def bool? : Json → Option Bool
  | .bool b => some b
  | _ => none

def text? : Json → Option String
  | .string written => (unescape? written).map String.ofList
  | _ => none

/-- `null`, or what `read` makes of a value. -/
def nullOr? {α : Type} (read : Json → Option α) : Json → Option (Option α)
  | .null => some none
  | value => (read value).map some

def list? {α : Type} (read : Json → Option α) : Json → Option (List α)
  | .array items => items.mapM read
  | _ => none

/-- The members of an object by their names. -/
def members? : Json → Option (List (String × Json))
  | .object members =>
    members.mapM fun (key, value) => return (String.ofList (← unescape? key), value)
  | _ => none

end Json

end Sigil
