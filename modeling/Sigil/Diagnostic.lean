import Sigil.Place

namespace Sigil

/-- Why a source is refused. -/
inductive Cause where
  | unrecognizedCharacter (c : Char)
  | unexpectedToken (found expected : String)
  | unexpectedStatement (found : String)
  | unknownModifier (modifier : String)
  | missingActionBlock (reducer : String)
  | missingMarkup
  | duplicateMarkup
  | eachAtRoot
  | invalidEachTemplate
  | outerLoopBinding (name : String)
  | mismatchedTag (expected found : String)
deriving DecidableEq, Repr

namespace Cause

/-- The cause in a few words, as a mark on the source shows it. -/
def label : Cause → String
  | unrecognizedCharacter c => "unrecognized '" ++ c.toString ++ "'"
  | unexpectedToken found expected => "unexpected " ++ found ++ ", expected " ++ expected
  | unexpectedStatement found => "unexpected " ++ found ++ " at start of statement"
  | unknownModifier modifier => "unknown state modifier ':" ++ modifier ++ "'"
  | missingActionBlock reducer => "reducer '" ++ reducer ++ "' is missing its action block"
  | missingMarkup => "component has no markup tree"
  | duplicateMarkup => "component already has a markup tree"
  | eachAtRoot => "<each> must be nested inside an element"
  | invalidEachTemplate => "<each> expects exactly one element template"
  | outerLoopBinding name =>
    "'" ++ name ++ "' from an enclosing <each> cannot be used inside a nested <each>"
  | mismatchedTag expected _ => "expected </" ++ expected ++ ">"

/-- The family a cause belongs to, as reports name it. -/
def code : Cause → String
  | unrecognizedCharacter _ => "lex-error"
  | mismatchedTag _ _ => "mismatched-tag"
  | _ => "parse-error"

end Cause

/-- A refusal and the place in the source it is about. -/
structure Diagnostic where
  cause : Cause
  place : Place
deriving DecidableEq, Repr

namespace Diagnostic

def message (d : Diagnostic) : String :=
  match d.cause with
  | .unrecognizedCharacter c =>
    "unrecognized character '" ++ c.toString ++ "' at line " ++ toString d.place.line ++
      ", column " ++ toString d.place.column
  | .mismatchedTag expected found =>
    "mismatched closing tag at line " ++ toString d.place.line ++ ": expected </" ++ expected ++
      ">, found </" ++ found ++ ">"
  | cause => cause.label ++ " at line " ++ toString d.place.line

end Diagnostic

end Sigil
