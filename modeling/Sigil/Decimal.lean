namespace Sigil

/-- An unsigned decimal number: a whole number of `digits`, with the point `places` from the right.
-/
structure Decimal where
  digits : Nat
  places : Nat
deriving DecidableEq, Repr

namespace Decimal

def digitValue (c : Char) : Nat := c.toNat - '0'.toNat

/-- The whole number that a run of digits spells. -/
def ofDigits (cs : List Char) : Nat := cs.foldl (fun n c => 10 * n + digitValue c) 0

/-- Reads digits with at most one point. -/
def ofChars (cs : List Char) : Decimal :=
  let whole := cs.takeWhile (· ≠ '.')
  let fraction := (cs.dropWhile (· ≠ '.')).drop 1
  ⟨ofDigits (whole ++ fraction), fraction.length⟩

/-- The quotient rounded to the nearest whole number, a half to the even one. -/
def roundDiv (num den : Nat) : Nat :=
  let q := num / den
  let r := num % den
  if 2 * r < den then q
  else if den < 2 * r then q + 1
  else if q % 2 = 0 then q else q + 1

/-- The exponent of the leading binary digit of `num / den`. -/
def binaryExponent (num den : Nat) : Int :=
  let e : Int := (num.log2 : Int) - (den.log2 : Int)
  let reaches := if 0 ≤ e then den * Nat.pow 2 e.toNat ≤ num else den ≤ num * Nat.pow 2 (-e).toNat
  if reaches then e else e - 1

/-- The fraction of a binary64 number has 52 bits. -/
def significandBound : Nat := 0x10000000000000

/-- The bits of the binary64 number nearest to `num / den`, infinity if that is too large. -/
def nearestBits (num den : Nat) : Nat :=
  if num = 0 then 0
  else
    let e := max (-1074) (binaryExponent num den - 52)
    let significand :=
      if 0 ≤ e then roundDiv num (den * Nat.pow 2 e.toNat)
      else roundDiv (num * Nat.pow 2 (-e).toNat) den
    min ((e + 1074).toNat * significandBound + significand) (0x7ff * significandBound)

/-- The bits of the binary64 number nearest to `d`. -/
def bits (d : Decimal) : UInt64 := (nearestBits d.digits (Nat.pow 10 d.places)).toUInt64

end Decimal

end Sigil
