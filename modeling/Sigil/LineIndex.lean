namespace Sigil

/-- The bytes that the characters `cs` take in UTF-8. -/
def byteLength : List Char → Nat
  | [] => 0
  | c :: cs => c.utf8Size + byteLength cs

/-- A text with the byte offset of each line's first character. -/
structure LineIndex where
  chars : List Char
  starts : List Nat

namespace LineIndex

/-- The line starts behind the characters `cs`, which begin at `offset`. -/
def startsFrom (offset : Nat) : List Char → List Nat
  | [] => []
  | c :: cs =>
    if c = '\n' then (offset + c.utf8Size) :: startsFrom (offset + c.utf8Size) cs
    else startsFrom (offset + c.utf8Size) cs

def ofText (text : String) : LineIndex :=
  ⟨text.toList, 0 :: startsFrom 0 text.toList⟩

/-- The characters behind the first `n` bytes, if a character starts there. -/
def dropBytes : List Char → Nat → Option (List Char)
  | cs, 0 => some cs
  | [], _ + 1 => none
  | c :: cs, n + 1 => if c.utf8Size ≤ n + 1 then dropBytes cs (n + 1 - c.utf8Size) else none

/-- How many characters the first `n` bytes hold, if they end with a character. -/
def countWithin : List Char → Nat → Option Nat
  | _, 0 => some 0
  | [], _ + 1 => none
  | c :: cs, n + 1 =>
    if c.utf8Size ≤ n + 1 then (countWithin cs (n + 1 - c.utf8Size)).map (· + 1) else none

/-- The last line start that is not behind `offset`. -/
def lineStart (index : LineIndex) (offset : Nat) : Nat :=
  ((index.starts.takeWhile (· ≤ offset)).getLast?).getD 0

/-- The line and the column of a byte offset. An offset behind the text counts as its end, and one
inside a character is given the first column of its line. -/
def position (index : LineIndex) (offset : Nat) : Nat × Nat :=
  let k := min offset (byteLength index.chars)
  let start := index.lineStart k
  let line := (index.starts.takeWhile (· ≤ k)).length
  match (dropBytes index.chars start).bind (countWithin · (k - start)) with
  | some n => (line, n + 1)
  | none => (line, 1)

end LineIndex

end Sigil
