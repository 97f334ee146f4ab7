namespace Sigil

namespace Glob

/-- A part of a glob. A directory gap stands for any number of whole names with their slashes. -/
inductive Piece where
  | literal (c : Char)
  /-- Any one byte. -/
  | any
  /-- Any bytes. -/
  | run
  /-- A gap that a glob starts with. -/
  | leadingGap
  /-- A slash and all below it. -/
  | trailingGap
  /-- A gap between two slashes, which may be the same one. -/
  | innerGap
  | oneOf (negated : Bool) (ranges : List (Char × Char))
  | alternatives (branches : List (List Piece))
deriving Repr, Inhabited

/-- Whether a byte is in a range of characters: the last byte of its first character and the first
byte of its last character span a range of bytes, the other bytes of the two stand for themselves.
-/
def rangeHas (range : Char × Char) (byte : UInt8) : Bool :=
  let low := String.utf8EncodeChar range.1
  let high := String.utf8EncodeChar range.2
  if range.1 = range.2 then low.contains byte
  else
    low.contains byte || high.contains byte ||
      (decide (low.getLastD 0 ≤ byte) && decide (byte ≤ high.headD 0))

/-- What is left behind each slash of a text. -/
def afterSlashes : List UInt8 → List (List UInt8)
  | [] => []
  | b :: bs => if b = '/'.toUInt8 then bs :: afterSlashes bs else afterSlashes bs

/-- All that can be left of a text behind its front. -/
def tails : List UInt8 → List (List UInt8)
  | [] => [[]]
  | b :: bs => (b :: bs) :: tails bs

/-- What is left behind a slash at the front. -/
def afterSlash? : List UInt8 → Option (List UInt8)
  | b :: bs => if b = '/'.toUInt8 then some bs else none
  | [] => none

mutual

/-- Whether a piece says nothing: it offers no alternative that says something. -/
def Piece.isVoid : Piece → Bool
  | .alternatives branches => allVoid branches
  | _ => false

def isVoid : List Piece → Bool
  | [] => true
  | p :: ps => p.isVoid && isVoid ps

def allVoid : List (List Piece) → Bool
  | [] => true
  | b :: bs => isVoid b && allVoid bs

end

mutual

/-- All that can be left of a text when a piece has taken its front. -/
def Piece.rests (text : List UInt8) : Piece → List (List UInt8)
  | .literal c =>
    let bytes := String.utf8EncodeChar c
    if bytes.isPrefixOf text then [text.drop bytes.length] else []
  | .any => (text.tail?).toList
  | .run => tails text
  | .leadingGap => text :: afterSlashes text
  | .trailingGap => ((afterSlash? text).map tails).getD []
  | .innerGap => ((afterSlash? text).map fun rest => rest :: afterSlashes rest).getD []
  | .oneOf negated ranges =>
    match text with
    | b :: bs => if ranges.any (rangeHas · b) != negated then [bs] else []
    | [] => []
  | .alternatives branches => if allVoid branches then [text] else anyRests text branches

/-- All that can be left of a text when pieces in turn have taken its front. -/
def rests (texts : List (List UInt8)) : List Piece → List (List UInt8)
  | [] => texts
  | p :: ps => rests (texts.flatMap fun text => p.rests text).eraseDups ps

/-- All that can be left when one of the branches that say something has taken the front. -/
def anyRests (text : List UInt8) : List (List Piece) → List (List UInt8)
  | [] => []
  | b :: bs => (if isVoid b then [] else rests [text] b) ++ anyRests text bs

end

end Glob

/-- A pattern for paths. -/
structure Glob where
  pieces : List Glob.Piece
deriving Repr

namespace Glob

/-- Whether a glob takes the whole of a path. A gap on its own takes every path. -/
def accepts (glob : Glob) (path : String) : Bool :=
  match glob.pieces with
  | [.leadingGap] => true
  | pieces => (rests [path.toUTF8.toList] pieces).contains []

end Glob

end Sigil
