/-!
# The connectives and their symbols

A formula is written with one symbol per connective and with round parentheses.
Every other character is *plain*: it can only be part of the name of an atom.

## Main definitions

* `BinaryOp` — the binary connectives, with their symbols and truth functions.
* `Connective` — the binary connectives and negation.
* `Connective.level` — how loosely a connective binds.
* `Connective.loosestFirst` — the order in which the connectives are tried as
  the main connective of a text.
* `isConnective`, `isParen`, `isSpecial` — the classes of characters.

## Main results

* `Connective.ofChar?_eq_some_iff` — a character denotes a connective exactly if
  it is that connective's symbol.
-/

namespace Sentential

/-! ### Binary connectives -/

/-- A binary connective. -/
inductive BinaryOp where
  /-- Conjunction, written `∧`. -/
  | and
  /-- Disjunction, written `⋁`. -/
  | or
  /-- The conditional, written `→`. -/
  | cond
  /-- The biconditional, written `↔`. -/
  | iff
  deriving DecidableEq, Repr, Inhabited

namespace BinaryOp

/-- The symbol of a binary connective.  Disjunction is the big `⋁` (U+22C1), not
the letter-like `∨`, which is an ordinary plain character. -/
def symbol : BinaryOp → Char
  | .and => '∧'
  | .or => '⋁'
  | .cond => '→'
  | .iff => '↔'

/-- The truth function of a binary connective. -/
def apply : BinaryOp → Bool → Bool → Bool
  | .and, left, right => left && right
  | .or, left, right => left || right
  | .cond, left, right => !left || right
  | .iff, left, right => left == right

instance : ToString BinaryOp := ⟨fun op => op.symbol.toString⟩

end BinaryOp

/-! ### All connectives -/

/-- A connective: negation or a binary connective. -/
inductive Connective where
  /-- Negation, written `¬`. -/
  | not
  /-- A binary connective. -/
  | binary (op : BinaryOp)
  deriving DecidableEq, Repr, Inhabited

namespace Connective

/-- The symbol of a connective. -/
def symbol : Connective → Char
  | .not => '¬'
  | .binary op => op.symbol

/-- How loosely a connective binds.  Two connectives of one level do not
associate with each other: a text that has both needs parentheses. -/
def level : Connective → Nat
  | .not => 1
  | .binary .and => 2
  | .binary .or => 2
  | .binary .cond => 3
  | .binary .iff => 3

/-- The connectives in the order in which they are tried as the main connective
of a text.  The level falls along the list; inside a level the order only decides
which connective an ambiguity is blamed on. -/
def loosestFirst : List Connective :=
  [.binary .iff, .binary .cond, .binary .and, .binary .or, .not]

/-- The connective a character denotes, if it denotes one. -/
def ofChar? (c : Char) : Option Connective :=
  loosestFirst.find? fun k => k.symbol == c

/-- Every connective is tried. -/
theorem mem_loosestFirst (k : Connective) : k ∈ loosestFirst := by
  rcases k with _ | _ | _ | _ | _ <;> decide

/-- A connective is read back from its symbol. -/
@[simp] theorem ofChar?_symbol (k : Connective) : ofChar? k.symbol = some k := by
  rcases k with _ | _ | _ | _ | _ <;> rfl

/-- **A character denotes a connective exactly if it is its symbol.** -/
theorem ofChar?_eq_some_iff {c : Char} {k : Connective} : ofChar? c = some k ↔ c = k.symbol := by
  constructor
  · intro h
    have := List.find?_some h
    exact (of_decide_eq_true this).symm
  · rintro rfl
    exact ofChar?_symbol k

end Connective

/-- The binary connective a character denotes, if it denotes one. -/
def BinaryOp.ofSymbol? (c : Char) : Option BinaryOp :=
  match Connective.ofChar? c with
  | some (.binary op) => some op
  | _ => none

/-- A binary connective is read back from its symbol. -/
@[simp] theorem BinaryOp.ofSymbol?_symbol (op : BinaryOp) : ofSymbol? op.symbol = some op := by
  cases op <;> rfl

/-- Distinct binary connectives have distinct symbols. -/
theorem BinaryOp.symbol_injective {op op' : BinaryOp} (h : op.symbol = op'.symbol) : op = op' := by
  have hread := ofSymbol?_symbol op
  rw [h, ofSymbol?_symbol] at hread
  exact (Option.some.inj hread).symm

/-! ### Classes of characters -/

/-- Whether a character is the symbol of a connective. -/
def isConnective (c : Char) : Bool := (Connective.ofChar? c).isSome

/-- Whether a character is a parenthesis. -/
def isParen (c : Char) : Bool := c == '(' || c == ')'

/-- Whether a character is the symbol of a connective or a parenthesis.  All
other characters are plain. -/
def isSpecial (c : Char) : Bool := isConnective c || isParen c

/-- The level of the connective a character denotes, and zero if it denotes
none. -/
def precedence (c : Char) : Nat :=
  match Connective.ofChar? c with
  | some k => k.level
  | none => 0

@[simp] theorem isConnective_symbol (k : Connective) : isConnective k.symbol = true := by
  simp [isConnective]

@[simp] theorem isSpecial_symbol (k : Connective) : isSpecial k.symbol = true := by
  simp [isSpecial]

/-- The special characters are these seven. -/
theorem isSpecial_iff_mem {c : Char} :
    isSpecial c = true ↔ c ∈ ['↔', '→', '∧', '⋁', '¬', '(', ')'] := by
  simp only [isSpecial, isConnective, isParen, Connective.ofChar?, Connective.loosestFirst,
    List.find?_isSome, Bool.or_eq_true, beq_iff_eq, List.mem_cons, List.not_mem_nil, or_false,
    exists_eq_or_imp, exists_eq_left, Connective.symbol, BinaryOp.symbol]
  grind

end Sentential
