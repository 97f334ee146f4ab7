namespace Sigil

/-- A stretch of a source, in bytes, from `start` up to `stop`. -/
structure Span where
  start : Nat
  stop : Nat
deriving DecidableEq, Repr

namespace Span

/-- The span of no bytes at `offset`. -/
def empty (offset : Nat) : Span := ⟨offset, offset⟩

/-- Whether `b` starts where `a` stops. -/
def touches (a b : Span) : Bool := a.stop == b.start

end Span

/-- A position reached by reading a source from its start: the bytes read, and the line and the
column of the next character, both counted from one. -/
structure Point where
  offset : Nat
  line : Nat
  column : Nat
deriving DecidableEq, Repr

namespace Point

def start : Point := ⟨0, 1, 1⟩

/-- The position behind the character `c`. -/
def next (p : Point) (c : Char) : Point :=
  if c = '\n' then ⟨p.offset + c.utf8Size, p.line + 1, 1⟩
  else ⟨p.offset + c.utf8Size, p.line, p.column + 1⟩

/-- The position behind the characters `cs`. -/
def after (p : Point) (cs : List Char) : Point := cs.foldl next p

end Point

/-- A stretch of a source together with the line and the column of its start. -/
structure Place where
  span : Span
  line : Nat
  column : Nat
deriving DecidableEq, Repr

namespace Place

/-- The place that is read between `p` and `q`. -/
def between (p q : Point) : Place := ⟨⟨p.offset, q.offset⟩, p.line, p.column⟩

end Place

end Sigil
