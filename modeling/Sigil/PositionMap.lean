import Sigil.Json.Text

namespace Sigil

/-- The digits of base 64. -/
def base64Digits : List Char :=
  "ABCDEFGHIJKLMNOPQRSTUVWXYZabcdefghijklmnopqrstuvwxyz0123456789+/".toList

def base64Digit (n : Nat) : Char := base64Digits.getD n 'A'

namespace Vlq

/-- A number in a word of 32 bits, its sign in the lowest one. A number that needs more bits loses
the highest. -/
def word (v : Int) : Nat := 2 * v.natAbs % 0x100000000 + if v < 0 then 1 else 0

/-- The groups of five bits of a number, lowest first; all but the last carry the bit for more. -/
def groups (n : Nat) : List Nat :=
  if n < 32 then [n] else (n % 32 + 32) :: groups (n / 32)
termination_by n
decreasing_by omega

def encode (v : Int) : List Char := (groups (word v)).map base64Digit

end Vlq

/-- Which lines of a generated file come from which lines of its source. The entries are ordered by
generated line, of which each has at most one. -/
structure PositionMap where
  file : String
  source : String
  entries : List (Nat × Nat)
deriving DecidableEq, Repr

namespace PositionMap

/-- Puts an entry in its place, unless its generated line has one. -/
def insertEntry (g o : Nat) : List (Nat × Nat) → List (Nat × Nat)
  | [] => [(g, o)]
  | (g', o') :: rest =>
    if g < g' then (g, o) :: (g', o') :: rest
    else if g = g' then (g', o') :: rest
    else (g', o') :: insertEntry g o rest

/-- Adds a mapping. Lines are counted from one, so a zero maps nothing. -/
def addMapping (map : PositionMap) (g o : Nat) : PositionMap :=
  if g = 0 ∨ o = 0 then map else { map with entries := insertEntry g o map.entries }

/-- The map of the given mappings, of which the first for each generated line counts. -/
def ofMappings (file source : String) (mappings : List (Nat × Nat)) : PositionMap :=
  mappings.foldl (fun map (g, o) => map.addMapping g o) ⟨file, source, []⟩

/-- The source line of a generated line. -/
def sourceLine? (map : PositionMap) (g : Nat) : Option Nat := map.entries.lookup g

/-- The first generated line of a source line. -/
def generatedLine? (map : PositionMap) (o : Nat) : Option Nat :=
  (map.entries.find? (·.2 == o)).map (·.1)

/-- The segment of an entry whose source line lies `delta` behind that of the entry before it. -/
def segment (delta : Int) : List Char :=
  Vlq.encode 0 ++ Vlq.encode 0 ++ Vlq.encode delta ++ Vlq.encode 0

/-- The segments of entries behind one for the lines `g` and `o`, with a semicolon for each line. -/
def encodeFrom (g o : Nat) : List (Nat × Nat) → List Char
  | [] => []
  | (g', o') :: rest =>
    List.replicate (g' - g) ';' ++ segment ((o' : Int) - (o : Int)) ++ encodeFrom g' o' rest

/-- The `mappings` field of the map's document. -/
def mappings (map : PositionMap) : String := String.ofList (encodeFrom 1 1 map.entries)

/-- The map as a document of version 3. -/
def document (map : PositionMap) : String :=
  "\x7b\"version\":3,\"file\":" ++ Json.quoted map.file ++ ",\"sources\":[" ++
    Json.quoted map.source ++
    "],\"names\":[],\"mappings\":" ++ Json.quoted map.mappings ++ "\x7d"

end PositionMap

end Sigil
