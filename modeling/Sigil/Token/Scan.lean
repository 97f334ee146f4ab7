import Sigil.Diagnostic
import Sigil.Token

namespace Sigil

def isBlank (c : Char) : Bool := c == ' ' || c == '\t' || c == '\r'

def isWordStart (c : Char) : Bool := c.isAlpha || c == '_'

def isWordPart (c : Char) : Bool := c.isAlphanum || c == '_'

/-- What stands at the front of a source, with how many characters it takes after its first one. -/
inductive Front where
  | skipped (more : Nat)
  | token (kind : Kind) (more : Nat)
  | unreadable (more : Nat)
deriving DecidableEq, Repr

namespace Front

/-- How many characters behind an opening quote belong to the string, and whether it is closed.
A string stops before a newline; a backslash takes the next character along. -/
def stringExtent (quote : Char) : List Char → Nat × Bool
  | [] => (0, false)
  | '\\' :: [] => (1, false)
  | '\\' :: c :: cs =>
    if c = '\n' then (1, false)
    else
      let (n, closed) := stringExtent quote cs
      (n + 2, closed)
  | c :: cs =>
    if c = quote then (1, true)
    else if c = '\n' then (0, false)
    else
      let (n, closed) := stringExtent quote cs
      (n + 1, closed)

/-- How many characters behind the first digit belong to a number: digits, then a point and more. -/
def numberExtent (cs : List Char) : Nat :=
  let whole := cs.takeWhile Char.isDigit
  match cs.dropWhile Char.isDigit with
  | '.' :: d :: rest =>
    if d.isDigit then whole.length + 2 + (rest.takeWhile Char.isDigit).length else whole.length
  | _ => whole.length

/-- The longest piece that starts with `c` and goes on in `cs`. -/
def read (c : Char) (cs : List Char) : Front :=
  if isBlank c then .skipped 0
  else if c = '/' ∧ cs.head? = some '/' then .skipped (cs.takeWhile (· ≠ '\n')).length
  else if c = '\n' then .token .newline 0
  else if c = '"' ∨ c = '\'' then
    match stringExtent c cs with
    | (n, true) => .token .string n
    | (n, false) => .unreadable n
  else if c.isDigit then .token .number (numberExtent cs)
  else if isWordStart c then .token .ident (cs.takeWhile isWordPart).length
  else
    match Symbol.atFront? (c :: cs) with
    | some s => .token (.symbol s) (s.text.length - 1)
    | none => .unreadable 0

end Front

namespace Token

/-- The text inside a string's quotes: a backslash is dropped and the character behind it kept. -/
def unescape : List Char → List Char
  | [] => []
  | '\\' :: [] => []
  | '\\' :: c :: cs => c :: unescape cs
  | c :: cs => c :: unescape cs

/-- What the spelling `cs` of a token stands for. -/
def valueOf (kind : Kind) (cs : List Char) : Value :=
  match kind with
  | .string => .text (String.ofList (unescape (cs.drop 1).dropLast))
  | .number => .number (Decimal.ofChars cs)
  | .ident => .word (String.ofList cs)
  | _ => .none

/-- The token of a kind that is spelled `cs` from `p` on. -/
def ofChars (kind : Kind) (cs : List Char) (p : Point) : Token :=
  ⟨kind, String.ofList cs, valueOf kind cs, .between p (p.after cs)⟩

/-- The tokens from `p` on, up to the stop token or to the first unreadable piece. -/
def scanFrom (p : Point) : List Char → List (Except Diagnostic Token)
  | [] => [.ok (ofChars .stop [] p)]
  | c :: cs =>
    match Front.read c cs with
    | .skipped n => scanFrom (p.after (c :: cs.take n)) (cs.drop n)
    | .token kind n =>
      .ok (ofChars kind (c :: cs.take n) p) :: scanFrom (p.after (c :: cs.take n)) (cs.drop n)
    | .unreadable n =>
      [.error ⟨.unrecognizedCharacter c, .between p (p.after (c :: cs.take n))⟩]
termination_by cs => cs.length
decreasing_by all_goals simp only [List.length_drop, List.length_cons]; omega

def scan (source : String) : List (Except Diagnostic Token) := scanFrom .start source.toList

/-- The tokens of a source, the last of which is a stop, or why there are none. -/
def tokenize (source : String) : Except Diagnostic (List Token) := (scan source).mapM id

end Token

end Sigil
