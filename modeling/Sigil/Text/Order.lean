namespace Sigil

/-- Whether a text stands before another or is the same, by code points. -/
def textLE : List Char → List Char → Bool
  | [], _ => true
  | _ :: _, [] => false
  | c :: cs, d :: ds => if c = d then textLE cs ds else c.toNat < d.toNat

/-- Whether a path, given by names, stands before another or is the same. -/
def namesLE : List String → List String → Bool
  | [], _ => true
  | _ :: _, [] => false
  | a :: as, b :: bs => if a = b then namesLE as bs else textLE a.toList b.toList

end Sigil
