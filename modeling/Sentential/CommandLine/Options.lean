import Sentential.CommandLine.Setting

/-!
# Options of the program

## Main definitions

* `LogLevel` — how much is logged.
* `Options` — what the program is asked to do.
* `Options.isLogged` — whether a run with these options is logged.
* `Options.ofArguments` — the options that arguments give.
-/

namespace Sentential.CommandLine

/-- How much is logged.  The log goes where the report goes. -/
inductive LogLevel where
  /-- Log nothing. -/
  | off
  /-- Log errors. -/
  | error
  /-- Log warnings too. -/
  | warn
  /-- Log what is done too. -/
  | info
  /-- Log details too. -/
  | debug
  /-- Log everything. -/
  | trace
  deriving DecidableEq, Repr

/-- The log level with a name.  Case does not matter. -/
def LogLevel.ofName? (name : String) : Option LogLevel :=
  [("off", LogLevel.off), ("error", .error), ("warn", .warn), ("info", .info),
    ("debug", .debug), ("trace", .trace)].lookup name.toLower

/-- Whether details are logged.  There is nothing but details that a log could show. -/
def LogLevel.showsDetails : LogLevel → Bool
  | .off | .error | .warn | .info => false
  | .debug | .trace => true

/-- What the program is asked to do. -/
structure Options where
  /-- The formula to report on, if there is one. -/
  formula? : Option String := none
  /-- The values given to variables, in order. -/
  assignments : List (String × Bool) := []
  /-- Whether to show the tableau. -/
  tableau : Bool := false
  /-- Whether to show trees as drawings. -/
  dot : Bool := false
  /-- How much to log, if that is said. -/
  logLevel? : Option LogLevel := none
  deriving DecidableEq, Repr

namespace Options

/-- Whether a run is logged.  If nothing is said, only warnings would be. -/
def isLogged (o : Options) : Bool := o.logLevel?.any LogLevel.showsDetails

/-- The options with one more setting.  Only variables can be set repeatedly. -/
def apply (o : Options) : Setting → Except ArgumentError Options
  | .formula text =>
    if o.formula?.isSome then .error (.repeated text) else .ok { o with formula? := some text }
  | .flag .tableau =>
    if o.tableau then .error (.repeated "tableau") else .ok { o with tableau := true }
  | .flag .dot => if o.dot then .error (.repeated "dot") else .ok { o with dot := true }
  | .parameter .assignment text =>
    match assignment? text with
    | none => .error (.badAssignment text)
    | some (name, value) => .ok { o with assignments := o.assignments ++ [(name, value)] }
  | .parameter .logLevel name =>
    if o.logLevel?.isSome then .error (.repeated name)
    else
      match LogLevel.ofName? name with
      | none => .error (.badLogLevel name)
      | some level => .ok { o with logLevel? := some level }

/-- The options with several more settings, in order. -/
def applyAll (o : Options) : List Setting → Except ArgumentError Options
  | [] => .ok o
  | setting :: rest =>
    match o.apply setting with
    | .error e => .error e
    | .ok o' => o'.applyAll rest

/-- The options that the arguments of the program give.  Help cannot be asked for. -/
def ofArguments (args : List String) : Except ArgumentError Options :=
  match Setting.ofArguments args with
  | .error e => .error e
  | .ok settings => applyAll {} settings

end Options

end Sentential.CommandLine
