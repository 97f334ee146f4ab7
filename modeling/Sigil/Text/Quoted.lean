namespace Sigil

/-- How a character is written inside single quotes. -/
def quotedChar (c : Char) : List Char :=
  if c = '\'' then ['\\', '\'']
  else if c = '\\' then ['\\', '\\']
  else if c = '\n' then ['\\', 'n']
  else [c]

/-- A text as a literal in single quotes. -/
def quote (s : String) : String := "'" ++ String.ofList (s.toList.flatMap quotedChar) ++ "'"

/-- How a character is written between tags: one that would be markup stands in a literal. -/
def escapedChar (c : Char) : List Char :=
  if c = '{' ∨ c = '}' ∨ c = '<' ∨ c = '>' then ['{', '\'', c, '\'', '}'] else [c]

/-- A text as it is written between tags. -/
def escapeText (s : String) : String := String.ofList (s.toList.flatMap escapedChar)

end Sigil
