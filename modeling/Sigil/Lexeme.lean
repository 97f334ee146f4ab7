import Sigil.Diagnostic
import Sigil.Token

namespace Sigil

/-- How a token lies behind the one before it. -/
inductive Gap where
  | touching
  | spaced
  | overlapping
deriving DecidableEq, Repr

namespace Gap

/-- The gap between a token that stops at `stop` and one that starts at `start`. -/
def between (stop start : Nat) : Gap :=
  if stop = start then .touching else if stop < start then .spaced else .overlapping

end Gap

/-- All that the grammar sees of a token: where it lies matters only through its line and through
the gap to the last token before it that is no newline. -/
structure Lexeme where
  kind : Kind
  text : String
  value : Value
  line : Nat
  gap : Gap
deriving DecidableEq, Repr

namespace Lexeme

def isWord (t : Lexeme) (word : String) : Bool := t.value.word? == some word

/-- The text that a string stands for. -/
def content (t : Lexeme) : String :=
  match t.value with
  | .text s => s
  | _ => t.text

/-- How messages call the token. -/
def describe (t : Lexeme) : String :=
  match t.kind with
  | .ident | .number | .string => t.kind.name ++ " " ++ t.text
  | kind => kind.name

/-- The lexemes of tokens, where the last token before them that is no newline stops at `before`. -/
def arrange : Option Nat → List Token → List Lexeme
  | _, [] => []
  | before, t :: ts =>
    let gap := (before.map (Gap.between · t.place.span.start)).getD .touching
    let stop := if t.kind = .newline then before else some t.place.span.stop
    ⟨t.kind, t.text, t.value, t.place.line, gap⟩ :: arrange stop ts

end Lexeme

/-- Tokens up to their end, and the place of that end. -/
structure Input where
  body : List Token
  stop : Place
deriving DecidableEq, Repr

namespace Input

/-- Cuts tokens at the first one that ends them. If there is none, they end behind the last. -/
def ofTokens (ts : List Token) : Input :=
  match ts.find? (·.isEnd) with
  | some t => ⟨ts.takeWhile (!·.isEnd), t.place⟩
  | none =>
    match ts.getLast? with
    | some t => ⟨ts, ⟨.empty t.place.span.stop, t.place.line, t.place.column⟩⟩
    | none => ⟨[], ⟨.empty 0, 1, 1⟩⟩

def lexemes (input : Input) : List Lexeme := Lexeme.arrange none input.body

/-- The place where `left` lexemes are still to be read. -/
def place (input : Input) (left : Nat) : Place :=
  ((input.body.drop (input.body.length - left)).head?.map (·.place)).getD input.stop

end Input

/-- A cause, and how many lexemes are left where it arises. -/
structure Fault where
  cause : Cause
  left : Nat
deriving DecidableEq, Repr

namespace Fault

def locate (fault : Fault) (input : Input) : Diagnostic := ⟨fault.cause, input.place fault.left⟩

end Fault

end Sigil
