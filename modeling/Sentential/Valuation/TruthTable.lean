import Sentential.Fault
import Sentential.Valuation.Evaluation

/-!
# Truth tables

The rows of the truth table of a formula with `n` variables are numbered from `0`
to `2 ^ n - 1`.  Variable `i` is true in a row if bit `i` of the row's number is
set, so the first variable changes fastest.

## Main definitions

* `rowAssignment` — the values a row gives to a list of names.
* `Formula.valueInRow`, `Formula.truthTable` — the value of a formula in one row,
  and in all rows.
-/

namespace Sentential

/-- The values that the row with number `bits` gives to `names`. -/
def rowAssignment (names : List String) (bits : Nat) : List (String × Bool) :=
  names.zipIdx.map fun (name, i) => (name, bits.testBit i)

/-- The value of a formula in one row.  There is none if a variable has a name
that cannot be stored. -/
def Formula.valueInRow (f : Formula) (bits : Nat) : Except Fault Bool :=
  match SymbolTable.ofList (rowAssignment f.variableNames bits) with
  | .error e => .error (.name e)
  | .ok env =>
    match f.evaluate env with
    | .error e => .error (.lookup e)
    | .ok value => .ok value

/-- The values of a formula in all rows of its truth table. -/
def Formula.truthTable (f : Formula) : Except Fault (List Bool) :=
  (List.range (Nat.pow 2 f.variableNames.length)).mapM f.valueInRow

end Sentential
