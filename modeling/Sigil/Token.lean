import Sigil.Decimal
import Sigil.Place

namespace Sigil

/-- The fixed spellings of the language. -/
inductive Symbol where
  | dollar | atSign | percent | tilde | tildeTilde | bang | amp | caret | hash | hashHash | question
  | eq | fatArrow | plusPlus | minusMinus | plusEq | plus | minus | star | slash | pipe | ellipsis
  | lparen | rparen | lbrace | rbrace | lbracket | rbracket | langle | rangle
  | dot | comma | colon | colonColon
deriving DecidableEq, Repr

namespace Symbol

def text : Symbol → String
  | dollar => "$"
  | atSign => "@"
  | percent => "%"
  | tilde => "~"
  | tildeTilde => "~~"
  | bang => "!"
  | amp => "&"
  | caret => "^"
  | hash => "#"
  | hashHash => "##"
  | question => "?"
  | eq => "="
  | fatArrow => "=>"
  | plusPlus => "++"
  | minusMinus => "--"
  | plusEq => "+="
  | plus => "+"
  | minus => "-"
  | star => "*"
  | slash => "/"
  | pipe => "|"
  | ellipsis => "..."
  | lparen => "("
  | rparen => ")"
  | lbrace => "\x7b"
  | rbrace => "\x7d"
  | lbracket => "["
  | rbracket => "]"
  | langle => "<"
  | rangle => ">"
  | dot => "."
  | comma => ","
  | colon => ":"
  | colonColon => "::"

/-- Every symbol, longer spellings before shorter ones. -/
def all : List Symbol :=
  [ellipsis, tildeTilde, hashHash, fatArrow, plusPlus, minusMinus, plusEq, colonColon,
    dollar, atSign, percent, tilde, bang, amp, caret, hash, question, eq, plus, minus, star, slash,
    pipe, lparen, rparen, lbrace, rbrace, lbracket, rbracket, langle, rangle, dot, comma, colon]

/-- The longest symbol that `cs` starts with. -/
def atFront? (cs : List Char) : Option Symbol := all.find? (·.text.toList.isPrefixOf cs)

end Symbol

/-- What a token is. -/
inductive Kind where
  | symbol (s : Symbol)
  | string
  | number
  | ident
  | comment
  | newline
  | stop
deriving DecidableEq, Repr

namespace Kind

/-- How messages call a token of this kind. -/
def name : Kind → String
  | symbol s => "'" ++ s.text ++ "'"
  | string => "string"
  | number => "number"
  | ident => "identifier"
  | comment => "comment"
  | newline => "newline"
  | stop => "end of input"

def isArithmetic : Kind → Bool
  | symbol .plus | symbol .minus | symbol .star | symbol .slash => true
  | _ => false

end Kind

/-- What a token stands for beyond its spelling. -/
inductive Value where
  | none
  | text (s : String)
  | word (s : String)
  | number (d : Decimal)
deriving DecidableEq, Repr

namespace Value

def word? : Value → Option String
  | word s => some s
  | _ => Option.none

end Value

/-- A token: its kind, its spelling, what it stands for, and where it is. -/
structure Token where
  kind : Kind
  text : String
  value : Value
  place : Place
deriving DecidableEq, Repr

namespace Token

/-- Whether the token stands for the given word. -/
def isWord (t : Token) (word : String) : Bool := t.value.word? == some word

/-- Whether the token ends the input: a stop that stands for no word. -/
def isEnd (t : Token) : Bool := t.kind == .stop && t.value.word?.isNone

end Token

end Sigil
