namespace Sigil

namespace Path

/-- The parts of a text between the characters `sep`. -/
def splitAt (sep : Char) : List Char → List (List Char)
  | [] => [[]]
  | c :: cs =>
    if c = sep then [] :: splitAt sep cs
    else
      match splitAt sep cs with
      | [] => [[c]]
      | part :: parts => (c :: part) :: parts

def isAbsolute (path : String) : Bool := path.toList.head? == some '/'

/-- What stands between the slashes of a path, behind the slash that makes it absolute. -/
def segments (path : String) : List String :=
  let cs := if isAbsolute path then path.toList.drop 1 else path.toList
  (splitAt '/' cs).map String.ofList

def ofSegments (absolute : Bool) (segs : List String) : String :=
  (if absolute then "/" else "") ++ "/".intercalate segs

/-- Drops the segments that name nothing from the end; the segments are given last first. A dot
names the working directory only where a path starts with it. -/
def trim (absolute : Bool) : List String → List String
  | [] => []
  | s :: before =>
    if s = "" ∨ s = "." ∧ (absolute ∨ before ≠ []) then trim absolute before else s :: before

/-- The segments of a path, last first, from the last one that names something. -/
def trimmed (path : String) : List String := trim (isAbsolute path) (segments path).reverse

/-- The name a path ends in. -/
def fileName? (path : String) : Option String :=
  match trimmed path with
  | s :: _ => if s = "." ∨ s = ".." then none else some s
  | [] => none

/-- A file name up to its last dot and what follows that dot. A dot in front divides nothing. -/
def splitName (name : String) : String × Option String :=
  match splitAt '.' name.toList |>.reverse with
  | extension :: part :: parts =>
    if part = [] ∧ parts = [] then (name, none)
    else
      (String.ofList (['.'].intercalate (part :: parts).reverse), some (String.ofList extension))
  | _ => (name, none)

def stem? (path : String) : Option String := (fileName? path).map fun name => (splitName name).1

def extension? (path : String) : Option String :=
  (fileName? path).bind fun name => (splitName name).2

/-- The path of the directory that holds what a path names. -/
def parent? (path : String) : Option String :=
  match trimmed path with
  | _ :: before => some (ofSegments (isAbsolute path) (trim (isAbsolute path) before).reverse)
  | [] => none

/-- `path` taken from `base`, unless it is absolute. -/
def join (base path : String) : String :=
  if isAbsolute path then path
  else if base = "" ∨ base.toList.getLast? = some '/' then base ++ path
  else base ++ "/" ++ path

/-- Puts an extension behind the stem of a path's file name. -/
def addExtension (path extension : String) : String :=
  match trimmed path, stem? path with
  | _ :: before, some stem =>
    ofSegments (isAbsolute path) ((stem ++ "." ++ extension) :: before).reverse
  | _, _ => path

/-- Replaces the extension of a path, or adds one. -/
def withExtension (path extension : String) : String :=
  match extension? path with
  | some old => addExtension (String.ofList (path.toList.take (path.length - old.length))) extension
  | none => addExtension path extension

end Path

end Sigil
