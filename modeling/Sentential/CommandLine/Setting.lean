import Sentential.CommandLine.Assignment

/-!
# Settings on the command line

The arguments of a program are read as a list of settings: formulas, flags, and
parameters with their values.  Long names follow two dashes and take a value
behind `=` or from the next argument.  Short names follow one dash and can be
grouped; a parameter ends its group and takes the rest of it as value, or the
next argument if nothing is left.  An argument of two dashes makes everything
behind it a formula, and so is every argument that does not begin with a dash or
is a single dash.

Left out is the request for help.  `-h` and `--help` are rejected here like any name
that is not known, where the program shows how it is called and succeeds.

## Main definitions

* `Flag`, `Parameter`, `Switch` — what can be set by name.
* `Setting` — one thing that the arguments say.
* `ArgumentError` — why arguments are rejected.
* `Setting.ofArguments` — the settings that arguments make.
-/

namespace Sentential.CommandLine

/-! ### Names -/

/-- Something that is set by its name alone. -/
inductive Flag where
  /-- Show the tableau. -/
  | tableau
  /-- Show trees as drawings. -/
  | dot
  deriving DecidableEq, Repr

/-- Something that is set to a value. -/
inductive Parameter where
  /-- The value of a variable. -/
  | assignment
  /-- How much is logged. -/
  | logLevel
  deriving DecidableEq, Repr

/-- Something that is set by name. -/
inductive Switch where
  /-- Set by the name alone. -/
  | flag (f : Flag)
  /-- Set to a value. -/
  | parameter (p : Parameter)
  deriving DecidableEq, Repr

/-- The switch with a long name. -/
def Switch.ofLong? (name : String) : Option Switch :=
  [("set", Switch.parameter .assignment), ("log-level", .parameter .logLevel),
    ("tableau", .flag .tableau), ("dot", .flag .dot)].lookup name

/-- The switch with a short name. -/
def Switch.ofShort? (c : Char) : Option Switch :=
  [('a', Switch.parameter .assignment), ('t', .flag .tableau), ('d', .flag .dot)].lookup c

/-! ### Settings -/

/-- One thing that the arguments say. -/
inductive Setting where
  /-- The formula is `text`. -/
  | formula (text : String)
  /-- A flag is set. -/
  | flag (f : Flag)
  /-- A parameter is set to `value`. -/
  | parameter (p : Parameter) (value : String)
  deriving DecidableEq, Repr

/-- Why arguments are rejected. -/
inductive ArgumentError where
  /-- No switch has this name. -/
  | unknownSwitch (arg : String)
  /-- A parameter has no value. -/
  | missingValue (arg : String)
  /-- A flag has a value. -/
  | unexpectedValue (arg : String)
  /-- Something that can be set once is set again. -/
  | repeated (arg : String)
  /-- An argument is not an assignment. -/
  | badAssignment (arg : String)
  /-- An argument is not the name of a log level. -/
  | badLogLevel (arg : String)
  deriving DecidableEq, Repr

/-- What is said when arguments are rejected. -/
def ArgumentError.message : ArgumentError → String
  | .unknownSwitch arg => "unknown option: " ++ arg
  | .missingValue arg => "value missing: " ++ arg
  | .unexpectedValue arg => "value not allowed: " ++ arg
  | .repeated arg => "given more than once: " ++ arg
  | .badAssignment arg => "not an assignment: " ++ arg
  | .badLogLevel arg => "not a log level: " ++ arg

namespace Setting

/-! ### Reading one argument

An argument is read into the settings that it makes and the parameter, if there
is one, that waits for the next argument. -/

/-- Reads the argument `arg` whose text behind two dashes is `s`. -/
def ofLong (arg : String) (s : List Char) :
    Except ArgumentError (List Setting × Option Parameter) :=
  match cutAtEquals? s with
  | some (name, value) =>
    match Switch.ofLong? (String.ofList name) with
    | none => .error (.unknownSwitch arg)
    | some (.flag _) => .error (.unexpectedValue arg)
    | some (.parameter p) => .ok ([.parameter p (String.ofList value)], none)
  | none =>
    match Switch.ofLong? (String.ofList s) with
    | none => .error (.unknownSwitch arg)
    | some (.flag f) => .ok ([.flag f], none)
    | some (.parameter p) => .ok ([], some p)

/-- The value of a parameter that ends a group: an `=` in front does not belong to
it. -/
def groupValue : List Char → String
  | [] => ""
  | c :: s => if c == '=' then String.ofList s else String.ofList (c :: s)

/-- Reads the argument `arg` whose text behind one dash is a group of short
names. -/
def ofGroup (arg : String) :
    List Char → Except ArgumentError (List Setting × Option Parameter)
  | [] => .ok ([], none)
  | c :: s =>
    match Switch.ofShort? c with
    | none => .error (.unknownSwitch arg)
    | some (.flag f) => do
      let (settings, waiting?) ← ofGroup arg s
      return (.flag f :: settings, waiting?)
    | some (.parameter p) =>
      if s.isEmpty then .ok ([], some p) else .ok ([.parameter p (groupValue s)], none)

/-- Reads one argument. -/
def ofArgument (arg : String) : Except ArgumentError (List Setting × Option Parameter) :=
  match arg.toList with
  | '-' :: '-' :: s => ofLong arg s
  | '-' :: c :: s => ofGroup arg (c :: s)
  | _ => .ok ([.formula arg], none)

/-! ### Reading all arguments -/

/-- Whether an argument begins with a dash and is not a single dash, so that it is
no value for a parameter in front of it. -/
def isDashed (arg : String) : Bool :=
  match arg.toList with
  | '-' :: _ :: _ => true
  | _ => false

/-- The settings that the arguments of a program make. -/
def ofArguments : List String → Except ArgumentError (List Setting)
  | [] => .ok []
  | arg :: rest =>
    if arg == "--" then .ok (rest.map .formula)
    else do
      let (settings, waiting?) ← ofArgument arg
      match waiting? with
      | none =>
        let others ← ofArguments rest
        return settings ++ others
      | some p =>
        match rest with
        | [] => .error (.missingValue arg)
        | value :: rest' =>
          if isDashed value then .error (.missingValue arg)
          else
            let others ← ofArguments rest'
            return settings ++ .parameter p value :: others

end Setting

end Sentential.CommandLine
