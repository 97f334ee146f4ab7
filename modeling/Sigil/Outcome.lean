import Sigil.Args
import Sigil.Failure

namespace Sigil

/-- What a run has made: the modules of the units that compiled, and the failures of the others. -/
structure Outcome where
  modules : List String
  failures : List Failure

namespace Outcome

/-- The outcome of compiling units one by one. -/
def ofResults (results : List (Except Failure String)) : Outcome where
  modules := results.filterMap fun
    | .ok code => some code
    | .error _ => none
  failures := results.filterMap fun
    | .error failure => some failure
    | .ok _ => none

def summary (outcome : Outcome) : Summary := ⟨outcome.modules.length, outcome.failures.length⟩

/-- What a run writes on the standard output. -/
def printed (outcome : Outcome) (args : Args) : String :=
  if args.stdout then String.join outcome.modules else ""

/-- What a run reports. A reader gets the summary too. -/
def report (outcome : Outcome) (format : ReportFormat) : String :=
  match format with
  | .human => Failure.humanReport outcome.failures ++ outcome.summary.text ++ "\n"
  | .json => if outcome.failures.isEmpty then "" else Failure.jsonReport outcome.failures
  | .machine => Failure.machineReport outcome.failures

end Outcome

end Sigil
