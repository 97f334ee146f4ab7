import Sigil.Path
import Sigil.Storage

namespace Sigil

/-- What a file holds: a text, or bytes that are none. -/
inductive Content where
  | text (s : String)
  | binary (bytes : List UInt8)
deriving DecidableEq

def Content.ofBytes (bytes : List UInt8) : Content :=
  match String.fromUTF8? bytes.toByteArray with
  | some s => .text s
  | none => .binary bytes

inductive Entry where
  | directory
  | file (content : Content)
deriving DecidableEq

/-- The names that lead from the root to an entry. -/
abbrev Location := List String

/-- Directories and files by their locations. The root itself is always there. -/
structure FileTree where
  entries : List (Location × Entry) := []

namespace FileTree

def find? (tree : FileTree) (loc : Location) : Option Entry :=
  if loc = [] then some .directory else tree.entries.lookup loc

/-- Puts an entry in place of what is at a location. -/
def put (tree : FileTree) (loc : Location) (entry : Entry) : FileTree :=
  ⟨(loc, entry) :: tree.entries.filter (·.1 ≠ loc)⟩

/-- The most bytes a name may have. -/
def nameLimit : Nat := 255

/-- The most bytes a path may have. -/
def pathLimit : Nat := 4095

/-- Follows one segment of a path out of a location, which has to be a directory. -/
def follow (tree : FileTree) (loc : Location) (segment : String) : Except SystemError Location :=
  match tree.find? loc with
  | none => throw .notFound
  | some (.file _) => throw .notADirectory
  | some .directory =>
    if segment = "" ∨ segment = "." then return loc
    else if segment = ".." then return loc.dropLast
    else if nameLimit < segment.utf8ByteSize then throw .nameTooLong
    else return loc ++ [segment]

/-- The location a path leads to from the directory `base`. What it leads through has to be there,
the location itself need not. -/
def locate (tree : FileTree) (base : Location) (path : String) : Except SystemError Location :=
  if path.toList.contains '\x00' then throw .nulInName
  else if path = "" then throw .notFound
  else if pathLimit < path.utf8ByteSize then throw .nameTooLong
  else (Path.segments path).foldlM tree.follow (if Path.isAbsolute path then [] else base)

/-- The entry a path leads to. -/
def entry (tree : FileTree) (base : Location) (path : String) : Except SystemError Entry := do
  match tree.find? (← tree.locate base path) with
  | some entry => return entry
  | none => throw .notFound

def isDirectory (tree : FileTree) (base : Location) (path : String) : Bool :=
  match tree.entry base path with
  | .ok .directory => true
  | _ => false

def isFile (tree : FileTree) (base : Location) (path : String) : Bool :=
  match tree.entry base path with
  | .ok (.file _) => true
  | _ => false

/-- The names that lead from one location to another below it. -/
def namesBelow? : Location → Location → Option (List String)
  | [], names => some names
  | a :: dir, b :: loc => if a = b then namesBelow? dir loc else none
  | _ :: _, [] => none

def filesBelow (tree : FileTree) (base : Location) (path : String) : List (List String) :=
  match tree.locate base path with
  | .ok dir =>
    tree.entries.filterMap fun (loc, entry) =>
      match entry with
      | .file _ => namesBelow? dir loc
      | .directory => none
  | .error _ => []

def read (tree : FileTree) (base : Location) (path : String) : Except SystemError String := do
  match ← tree.entry base path with
  | .directory => throw .isADirectory
  | .file (.text s) => return s
  | .file (.binary _) => throw .notText

/-- Makes a directory where nothing is yet. -/
def makeDirectory (tree : FileTree) (base : Location) (path : String) :
    Except SystemError FileTree := do
  let loc ← tree.locate base path
  match tree.find? loc with
  | some _ => throw .alreadyExists
  | none => return tree.put loc .directory

/-- Puts a file where no directory is. -/
def putFile (tree : FileTree) (base : Location) (path : String) (content : Content) :
    Except SystemError FileTree := do
  let loc ← tree.locate base path
  match tree.find? loc with
  | some .directory => throw .isADirectory
  | _ => return tree.put loc (.file content)

end FileTree

/-- A file tree and the directory a run works in. -/
structure Workspace where
  tree : FileTree
  directory : Location

namespace Workspace

/-- Takes over a changed tree, if the change was made. -/
def update (w : Workspace) : Except SystemError FileTree → Except SystemError Unit × Workspace
  | .ok tree => (.ok (), { w with tree })
  | .error e => (.error e, w)

/-- The path of the directory a run works in, which may be gone. -/
def workingDirectory? (w : Workspace) : Option String :=
  if w.tree.find? w.directory = some .directory then some (Path.ofSegments true w.directory)
  else none

instance : Storage (StateM Workspace) where
  workingDirectory := fun w => (w.workingDirectory?, w)
  isDirectory path := fun w => (w.tree.isDirectory w.directory path, w)
  isFile path := fun w => (w.tree.isFile w.directory path, w)
  filesBelow path := fun w => (w.tree.filesBelow w.directory path, w)
  read path := fun w => (w.tree.read w.directory path, w)
  makeDirectory path := fun w => w.update (w.tree.makeDirectory w.directory path)
  putFile path text := fun w => w.update (w.tree.putFile w.directory path (.text text))

end Workspace

end Sigil
