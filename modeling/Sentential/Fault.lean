import Sentential.Reading.ParseError
import Sentential.Tableau.Build
import Sentential.Valuation.SymbolTable

/-!
# Faults

Reading, evaluating, storing names and building tableaux each fail in their own
way.  Work that does several of these fails with a fault.

## Main definitions

* `Fault` — any of the failures.
* `Fault.message` — what is reported for it.
-/

namespace Sentential

/-- A failure of any kind. -/
inductive Fault where
  /-- A text is not a formula. -/
  | parse (e : ParseError)
  /-- A name cannot be stored. -/
  | name (e : InvalidName)
  /-- A variable has no value. -/
  | lookup (e : LookupError)
  /-- A formula has no tableau. -/
  | tableau (e : TableauError)
  deriving DecidableEq, Repr

/-- What is reported for a failure. -/
def Fault.message : Fault → String
  | .parse e => e.message
  | .name e => e.message
  | .lookup e => e.message
  | .tableau e => e.message

end Sentential
