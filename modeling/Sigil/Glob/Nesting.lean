import Sigil.Glob

namespace Sigil

namespace Glob

/-- The levels of parts in a row. A part on its own stands for itself. -/
def rowLevels : List Nat → Nat
  | [levels] => levels
  | parts => 1 + parts.foldr Nat.max 0

/-- The levels of a choice between branches: one for its bounds and one for the choice, if there is
any. A choice without branches is no part. -/
def choiceLevels : List Nat → List Nat
  | [] => []
  | [levels] => [1 + levels]
  | branches => [2 + branches.foldr Nat.max 0]

/-- How many items a range of characters makes in a set of bytes. -/
def rangeItems (range : Char × Char) : Nat :=
  if range.1 = range.2 then range.1.utf8Size else range.1.utf8Size + range.2.utf8Size - 1

mutual

/-- The levels of the parts of a piece. A byte has none, a repetition and a set have one, and a set
of several items has one more. -/
def Piece.levels : Piece → List Nat
  | .literal c => List.replicate c.utf8Size 0
  | .any => [0]
  | .run => [1]
  | .leadingGap => choiceLevels [1, rowLevels [1, 0]]
  | .trailingGap => [0, 1]
  | .innerGap => choiceLevels [0, rowLevels [0, 1, 0]]
  | .oneOf _ ranges => [if ranges.foldr (rangeItems · + ·) 0 = 1 then 1 else 2]
  | .alternatives branches => choiceLevels (branchLevels branches)

def partLevels : List Piece → List Nat
  | [] => []
  | p :: ps => p.levels ++ partLevels ps

/-- The levels of the branches that say something. -/
def branchLevels : List (List Piece) → List Nat
  | [] => []
  | b :: bs =>
    if isVoid b then branchLevels bs else rowLevels (partLevels b) :: branchLevels bs

end

/-- How deep the levels of a glob lie in one another. -/
def nesting (glob : Glob) : Nat := 1 + (partLevels glob.pieces).foldr Nat.max 0

/-- The deepest nesting a glob may have. -/
def nestingLimit : Nat := 250

end Glob

end Sigil
