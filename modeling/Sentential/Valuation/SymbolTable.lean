import Sentential.Formula.Basic

/-!
# Symbol tables

A symbol table gives truth values to variables.  Its entries keep the order in
which the names were first stored; assigning a new value does not move an entry.

A name that cannot be told from a truth value, or that is empty, is refused.  An
operation that stores several names stops at the first refused one and keeps what
it has stored so far, so such an operation returns the table it leaves behind
beside its result.

## Main definitions

* `isValidName`, `InvalidName` — the names that can be stored, and the refusal.
* `SymbolTable` — the tables, with `lookup?`, `get`, `add`, `set`, `setAll`,
  `register` and `clear`.
* `TableEdit`, `SymbolTable.edit` — the operations as data, for histories.
-/

namespace Sentential

/-! ### Names -/

/-- Whether a name can be stored.  The empty name and the two letters of the truth
values cannot. -/
def isValidName (name : String) : Bool := !(name == "" || name == "T" || name == "F")

/-- The refusal to store a name. -/
structure InvalidName where
  /-- The refused name. -/
  name : String
  deriving DecidableEq, Repr

/-- What is reported when a name is refused. -/
def InvalidName.message (e : InvalidName) : String :=
  "Invalid variable name: \"" ++ e.name ++ "\""

/-- The failure to find a variable in a table. -/
structure LookupError where
  /-- The name that is not in the table. -/
  name : String
  deriving DecidableEq, Repr

/-- What is reported when a variable is not in the table. -/
def LookupError.message (e : LookupError) : String :=
  "unknown variable '" ++ e.name ++ "'"

/-! ### Tables -/

/-- A symbol table: names with their values, in the order of first storing. -/
structure SymbolTable where
  /-- The entries, oldest name first. -/
  entries : List (String × Bool)
  deriving DecidableEq, Repr

namespace SymbolTable

/-- The table without entries. -/
def empty : SymbolTable := ⟨[]⟩

instance : Inhabited SymbolTable := ⟨empty⟩

/-- The names of a table, oldest first. -/
def names (t : SymbolTable) : List String := t.entries.map Prod.fst

/-- The number of entries. -/
def size (t : SymbolTable) : Nat := t.entries.length

/-- Whether a table has no entries. -/
def isEmpty (t : SymbolTable) : Bool := t.entries.isEmpty

/-- The value of a name, if it has one. -/
def lookup? (t : SymbolTable) (name : String) : Option Bool := t.entries.lookup name

/-- Whether a name has a value. -/
def contains (t : SymbolTable) (name : String) : Bool := (t.lookup? name).isSome

/-- The value of a name, or the report that it has none. -/
def get (t : SymbolTable) (name : String) : Except LookupError Bool :=
  match t.lookup? name with
  | some value => .ok value
  | none => .error ⟨name⟩

/-- Gives `name` the value `value` where it stands, or at the end if it is new. -/
def assign (name : String) (value : Bool) : List (String × Bool) → List (String × Bool)
  | [] => [(name, value)]
  | entry :: rest =>
    if entry.1 == name then (name, value) :: rest else entry :: assign name value rest

/-- Stores a name with a value.  A name that is there already keeps its place. -/
def set (t : SymbolTable) (name : String) (value : Bool) : Except InvalidName SymbolTable :=
  if isValidName name then .ok ⟨assign name value t.entries⟩ else .error ⟨name⟩

/-- Stores a name with a value unless it is there already: a known name keeps its
value. -/
def add (t : SymbolTable) (name : String) (value : Bool) : Except InvalidName SymbolTable :=
  if isValidName name then
    .ok (if t.contains name then t else ⟨t.entries ++ [(name, value)]⟩)
  else .error ⟨name⟩

/-- Stores one name after another by `store`, up to the first refusal. -/
def storeAll (store : SymbolTable → String → Bool → Except InvalidName SymbolTable) :
    SymbolTable → List (String × Bool) → SymbolTable × Except InvalidName Unit
  | t, [] => (t, .ok ())
  | t, (name, value) :: rest =>
    match store t name value with
    | .ok t' => storeAll store t' rest
    | .error e => (t, .error e)

/-- Sets one name after another, up to the first refusal. -/
def setAll (t : SymbolTable) (values : List (String × Bool)) :
    SymbolTable × Except InvalidName Unit :=
  storeAll set t values

/-- Adds the variables of a formula as false, in the order in which they are
first met, up to the first refusal. -/
def register (t : SymbolTable) (f : Formula) : SymbolTable × Except InvalidName Unit :=
  storeAll add t (f.variableNames.map fun name => (name, false))

/-- The table that `values` sets up from nothing. -/
def ofList (values : List (String × Bool)) : Except InvalidName SymbolTable :=
  match empty.setAll values with
  | (t, .ok ()) => .ok t
  | (_, .error e) => .error e

end SymbolTable

/-! ### Histories -/

/-- A change to a symbol table. -/
inductive TableEdit where
  /-- Store a name unless it is there already. -/
  | add (name : String) (value : Bool)
  /-- Store a name, with a new value if it is there already. -/
  | set (name : String) (value : Bool)
  /-- Store several names in order. -/
  | setAll (values : List (String × Bool))
  /-- Add the variables of a formula as false. -/
  | register (f : Formula)
  /-- Remove all entries. -/
  | clear
  deriving DecidableEq, Repr

namespace SymbolTable

/-- Leaves the table as it was when a single name is refused. -/
def orKeep (t : SymbolTable) : Except InvalidName SymbolTable →
    SymbolTable × Except InvalidName Unit
  | .ok t' => (t', .ok ())
  | .error e => (t, .error e)

/-- The table after a change, and whether a name was refused. -/
def edit (t : SymbolTable) : TableEdit → SymbolTable × Except InvalidName Unit
  | .add name value => t.orKeep (t.add name value)
  | .set name value => t.orKeep (t.set name value)
  | .setAll values => t.setAll values
  | .register f => t.register f
  | .clear => (empty, .ok ())

/-- The table after a history of changes, refusals included. -/
def run (t : SymbolTable) (edits : List TableEdit) : SymbolTable :=
  edits.foldl (fun t e => (t.edit e).1) t

end SymbolTable

end Sentential
