import Sentential.CommandLine.Options
import Sentential.Editor.Report

/-!
# Running the program

The outcome of a run is told without its log.  The lines of a log show the time, and
in a run that is logged they stand between the lines of the report.

## Main definitions

* `Outcome` — how a run of the program ends.
* `Outcome.exitCode`, `Outcome.output` — what the caller of the program sees.
* `stdout?` — the text on the output stream, if nothing is logged.
* `run` — the outcome for the arguments of the program.
-/

namespace Sentential.CommandLine

/-- How a run of the program ends. -/
inductive Outcome where
  /-- All there is was printed. -/
  | printed (text : String)
  /-- The report broke off. -/
  | failed (r : BrokenReport)
  /-- The arguments were rejected. -/
  | rejected (e : ArgumentError)
  deriving DecidableEq, Repr

namespace Outcome

/-- The outcome of a run that is to print a report. -/
def ofReport : Except BrokenReport String → Outcome
  | .ok text => .printed text
  | .error r => .failed r

/-- The exit code of a run. -/
def exitCode : Outcome → Nat
  | .printed _ => 0
  | .failed _ => 1
  | .rejected _ => 2

/-- What a run prints, its log apart. -/
def output : Outcome → String
  | .printed text => text
  | .failed r => r.printed
  | .rejected _ => ""

/-- What a run complains about. -/
def complaint? : Outcome → Option String
  | .printed _ => none
  | .failed r => some r.message
  | .rejected e => some e.message

end Outcome

/-- The outcome for given options: the list of shorthands if there is no formula,
and otherwise the report on the formula. -/
def runOptions (o : Options) : Outcome :=
  match o.formula? with
  | none => .printed shorthandHelp
  | some typed => .ofReport (Report.print typed o.assignments o.tableau o.dot)

/-- All that a run with given options puts on the output stream.  It is not told of a run that is
logged. -/
def stdout? (o : Options) : Option String :=
  if o.isLogged then none else some (runOptions o).output

/-- The outcome for the arguments of the program. -/
def run (args : List String) : Outcome :=
  match Options.ofArguments args with
  | .error e => .rejected e
  | .ok o => runOptions o

end Sentential.CommandLine
