import Sigil.Diagnostic
import Sigil.Json.Text

namespace Sigil

/-- Why a unit has no output. -/
inductive FailureCause where
  | compile (diagnostic : Diagnostic)
  | read (reason : String)
  | write (target reason : String)
  | map (reason : String)
deriving DecidableEq, Repr

namespace FailureCause

def message : FailureCause → String
  | .compile d => d.message
  | .read reason => "failed to read file: " ++ reason
  | .write target reason => "failed to write " ++ target ++ ": " ++ reason
  | .map reason => "failed to serialize position map: " ++ reason

/-- The family a failure belongs to, as reports name it. -/
def code : FailureCause → String
  | .compile d => d.cause.code
  | .read _ => "io-error"
  | .write _ _ => "io-error"
  | .map _ => "source-map-error"

def place? : FailureCause → Option Place
  | .compile d => some d.place
  | _ => none

end FailureCause

/-- A unit that failed, with its source where that is to be shown. -/
structure Failure where
  path : String
  source? : Option String := none
  cause : FailureCause
deriving DecidableEq, Repr

namespace Failure

/-- The path of a failure and its line and column, if it has them. -/
def location (f : Failure) : String :=
  match f.cause.place? with
  | some place => f.path ++ ":" ++ toString place.line ++ ":" ++ toString place.column
  | none => f.path

/-- A failure on one line. -/
def machineLine (f : Failure) : String :=
  "ERROR " ++ f.location ++ " " ++ f.cause.message ++ " (" ++ f.cause.code ++ ")\n"

/-- The members of a failure as JSON, each with its written value. -/
def jsonMembers (f : Failure) : List (String × String) :=
  [("filename", Json.quoted f.path)] ++
    (match f.cause.place? with
    | some place =>
      [("line", toString place.line), ("column", toString place.column),
        ("offset", toString place.span.start)]
    | none => []) ++
    [("message", Json.quoted f.cause.message), ("code", Json.quoted f.cause.code)]

/-- Stacks written values between two brackets, indented by two blanks below `indent`. -/
def jsonBlock (indent opening closing : String) (values : List String) : String :=
  opening ++ "\n" ++ ",\n".intercalate (values.map fun v => indent ++ "  " ++ v) ++ "\n" ++
    indent ++ closing

def json (f : Failure) : String :=
  jsonBlock "  " "\x7b" "\x7d"
    (f.jsonMembers.map fun (key, value) => Json.quoted key ++ ": " ++ value)

/-- Failures as a JSON array. -/
def jsonReport (failures : List Failure) : String :=
  match failures with
  | [] => "[]"
  | _ => jsonBlock "" "[" "]" (failures.map json)

/-- Failures one to a line. -/
def machineReport (failures : List Failure) : String := String.join (failures.map machineLine)

/-- A mark on a stretch of a source. -/
structure Label where
  offset : Nat
  length : Nat
  text : String
deriving DecidableEq, Repr

/-- What a reader is shown of a failure: a headline, its code, and marks on the source if there is
one to show. -/
structure Notice where
  headline : String
  code : String
  labels : List Label
  source? : Option String
deriving DecidableEq, Repr

def notice (f : Failure) : Notice :=
  match f.cause, f.source? with
  | .compile d, some source =>
    let span := d.place.span
    { headline := f.location ++ ": " ++ d.message
      code := f.cause.code
      labels := [⟨span.start, span.stop - span.start, d.cause.label⟩]
      source? := some source }
  | cause, _ =>
    { headline := f.path ++ ": " ++ cause.message
      code := cause.code
      labels := []
      source? := none }

/-- Failures for a reader: each with its code, its headline and what is marked. -/
def humanReport (failures : List Failure) : String :=
  String.join <| failures.map fun f =>
    let notice := f.notice
    notice.code ++ "\n\n  × " ++ notice.headline ++ "\n" ++
      String.join (notice.labels.map fun label => "  ╰── " ++ label.text ++ "\n") ++ "\n"

end Failure

/-- How many units a run has compiled and how many failed. -/
structure Summary where
  compiled : Nat := 0
  failed : Nat := 0
deriving DecidableEq, Repr

def Summary.text (s : Summary) : String :=
  "hooksmith compiled " ++ toString s.compiled ++ (if s.compiled = 1 then " file" else " files") ++
    (if s.failed = 0 then "" else ", " ++ toString s.failed ++ " failed")

end Sigil
