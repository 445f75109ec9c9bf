import Sentential.Valuation.SymbolTable

/-!
# Assignments on the command line

An assignment is typed as `name=value`.  It is cut at its first `=`, so a name has
no `=` in it while everything behind is taken for the value.

## Main definitions

* `truthValue?` — the spellings of the two truth values.
* `assignment?` — an assignment as it is typed.
-/

namespace Sentential.CommandLine

/-- The truth value that is spelled by a word.  Case matters, except for the
single letters. -/
def truthValue? (word : String) : Option Bool :=
  if ["T", "t", "true", "1"].contains word then some true
  else if ["F", "f", "false", "0"].contains word then some false
  else none

/-- Cuts a text at its first `=`, if it has one. -/
def cutAtEquals? : List Char → Option (List Char × List Char)
  | [] => none
  | c :: s =>
    if c == '=' then some ([], s)
    else (cutAtEquals? s).map fun (left, right) => (c :: left, right)

/-- The name and the value in an assignment, if it is well formed and the name can
be stored. -/
def assignment? (text : String) : Option (String × Bool) :=
  match cutAtEquals? text.toList with
  | none => none
  | some (left, right) =>
    if isValidName (String.ofList left) then
      (truthValue? (String.ofList right)).map fun value => (String.ofList left, value)
    else none

end Sentential.CommandLine
