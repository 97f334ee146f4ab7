namespace Sigil

namespace Json

/-- What the next character of a commented document stands in. -/
inductive Setting where
  | code
  | string
  | lineComment
  | blockComment
deriving DecidableEq, Repr

/-- Drops the comments of a document, read from within `setting`. A line comment ends before its
newline; a comment that is never closed runs to the end. -/
def stripFrom : Setting → List Char → List Char
  | _, [] => []
  | .code, '/' :: '/' :: rest => stripFrom .lineComment rest
  | .code, '/' :: '*' :: rest => stripFrom .blockComment rest
  | .code, '"' :: rest => '"' :: stripFrom .string rest
  | .code, c :: rest => c :: stripFrom .code rest
  | .string, '\\' :: c :: rest => '\\' :: c :: stripFrom .string rest
  | .string, '"' :: rest => '"' :: stripFrom .code rest
  | .string, c :: rest => c :: stripFrom .string rest
  | .lineComment, '\n' :: rest => '\n' :: stripFrom .code rest
  | .lineComment, _ :: rest => stripFrom .lineComment rest
  | .blockComment, '*' :: '/' :: rest => stripFrom .code rest
  | .blockComment, _ :: rest => stripFrom .blockComment rest

/-- Drops the comments of a document; what looks like one inside a string stays. -/
def stripComments (text : List Char) : List Char := stripFrom .code text

end Json

end Sigil
