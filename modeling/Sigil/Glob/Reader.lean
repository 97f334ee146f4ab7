import Sigil.Glob.Nesting

namespace Sigil

namespace Glob

/-- A character of a glob, one that a backslash frees of its meaning, or a set in brackets. -/
inductive Mark where
  | plain (c : Char)
  | escaped (c : Char)
  | set (negated : Bool) (ranges : List (Char × Char))
deriving DecidableEq, Repr

namespace Mark

/-- The last character a mark is written with. -/
def last : Mark → Char
  | .plain c => c
  | .escaped c => c
  | .set _ _ => ']'

/-- Lets the last range run up to `c`. -/
def extend? (ranges : List (Char × Char)) (c : Char) : Option (List (Char × Char)) :=
  match ranges with
  | (low, _) :: rest => if low ≤ c then some ((low, c) :: rest) else none
  | [] => none

mutual

/-- Divides a glob into marks. -/
def ofChars? : List Char → Option (List Mark)
  | [] => some []
  | ['\\'] => none
  | '\\' :: c :: rest => return .escaped c :: (← ofChars? rest)
  | '[' :: c :: rest => if c = '!' ∨ c = '^' then openSet? true rest else openSet? false (c :: rest)
  | ['['] => none
  | c :: rest => return .plain c :: (← ofChars? rest)

/-- Reads the first character of a set, which is always one of its own. -/
def openSet? (negated : Bool) : List Char → Option (List Mark)
  | [] => none
  | c :: rest => set? negated [(c, c)] false rest

/-- Reads the rest of a set; `ranges` has the last range first, and `dash` tells that it goes on. A
dash before the closing bracket stands for itself. -/
def set? (negated : Bool) (ranges : List (Char × Char)) (dash : Bool) :
    List Char → Option (List Mark)
  | [] => none
  | c :: rest =>
    if c = ']' then
      let ranges := if dash then ('-', '-') :: ranges else ranges
      return .set negated ranges.reverse :: (← ofChars? rest)
    else if dash then do set? negated (← extend? ranges c) false rest
    else if c = '-' then set? negated ranges true rest
    else set? negated ((c, c) :: ranges) false rest

end

end Mark

/-- A glob being read: the branch that is open, last piece first, and for each open brace the
branches it has closed and the pieces before it, both last first. -/
structure Draft where
  branch : List Piece := []
  outer : List (List (List Piece) × List Piece) := []

namespace Draft

def push (draft : Draft) (piece : Piece) : Draft := { draft with branch := piece :: draft.branch }

def isNested (draft : Draft) : Bool := !draft.outer.isEmpty

/-- Puts a gap in place of the slash before it; a gap that is there already takes it in. -/
def gap (draft : Draft) (piece : Piece) : Draft :=
  match draft.branch with
  | .leadingGap :: _ => draft
  | .trailingGap :: _ => draft
  | _ :: before => { draft with branch := piece :: before }
  | [] => draft

def openBrace (draft : Draft) : Draft :=
  { branch := [], outer := ([], draft.branch) :: draft.outer }

def comma (draft : Draft) : Draft :=
  match draft.outer with
  | (closed, before) :: outer =>
    { branch := [], outer := (draft.branch.reverse :: closed, before) :: outer }
  | [] => draft.push (.literal ',')

def closeBrace? (draft : Draft) : Option Draft :=
  match draft.outer with
  | (closed, before) :: outer =>
    some { branch := .alternatives (draft.branch.reverse :: closed).reverse :: before, outer }
  | [] => none

/-- Whether two stars behind `previous` can be a gap. -/
def startsGap (draft : Draft) (previous : Option Char) : Bool :=
  previous = some '/' || draft.isNested && (previous = some ',' || previous = some '\x7b')

def twoRuns (draft : Draft) : Draft := (draft.push .run).push .run

/-- Reads marks in turn; `previous` is the character before them. Two stars are a gap where they
stand alone between slashes, commas, braces and the ends of the glob, and two runs elsewhere. -/
def read? (draft : Draft) (previous : Option Char) : List Mark → Option Draft
  | [] => some draft
  | .plain '*' :: .plain '*' :: rest =>
    if draft.branch.isEmpty then
      match rest with
      | [] => read? (draft.push .leadingGap) (some '*') []
      | .plain '/' :: rest => read? (draft.push .leadingGap) (some '/') rest
      | rest => read? draft.twoRuns (some '*') rest
    else if draft.startsGap previous then
      match rest with
      | [] => read? (draft.gap .trailingGap) (some '*') []
      | .plain '/' :: rest => read? (draft.gap .innerGap) (some '/') rest
      | .plain c :: rest =>
        if draft.isNested ∧ (c = ',' ∨ c = '\x7d') then
          read? (draft.gap .trailingGap) (some '*') (.plain c :: rest)
        else read? draft.twoRuns (some '*') (.plain c :: rest)
      | rest => read? draft.twoRuns (some '*') rest
    else read? draft.twoRuns (some '*') rest
  | .plain c :: rest =>
    match c with
    | '*' => read? (draft.push .run) (some c) rest
    | '?' => read? (draft.push .any) (some c) rest
    | ',' => read? draft.comma (some c) rest
    | '\x7b' => read? draft.openBrace (some c) rest
    | '\x7d' => do read? (← draft.closeBrace?) (some c) rest
    | c => read? (draft.push (.literal c)) (some c) rest
  | .escaped c :: rest => read? (draft.push (.literal c)) (some c) rest
  | .set negated ranges :: rest => read? (draft.push (.oneOf negated ranges)) (some ']') rest
termination_by marks => marks.length

end Draft

/-- Reads a glob; brackets and braces have to be closed, no backslash ends it, and it does not nest
too deep. -/
def parse? (text : String) : Option Glob := do
  let draft ← Draft.read? {} none (← Mark.ofChars? text.toList)
  guard !draft.isNested
  let glob : Glob := ⟨draft.branch.reverse⟩
  guard (glob.nesting ≤ nestingLimit)
  return glob

end Glob

end Sigil
