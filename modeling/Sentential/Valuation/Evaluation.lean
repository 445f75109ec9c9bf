import Sentential.Outline
import Sentential.Valuation.SymbolTable

/-!
# Evaluating formulas

A formula is evaluated in a symbol table from left to right.  Both operands of a
connective are always evaluated, so whether a variable is missing does not depend
on the values of the others, and the one reported is the first from the left.

## Main definitions

* `Formula.evaluate` — the value of a formula in a table.
* `EvalTree` — the values of all subformulas of a formula.
* `EvalTree.outline` — an evaluation tree as a list, in preorder.
* `Formula.evaluateTree` — the evaluation tree of a formula in a table.
-/

namespace Sentential

namespace Formula

/-- The value of a formula in a symbol table, or the first of its variables that
is not there. -/
def evaluate (env : SymbolTable) : Formula → Except LookupError Bool
  | .lit value => .ok value
  | .var name => env.get name
  | .neg a => do
    let value ← a.evaluate env
    return !value
  | .bin op a b => do
    let left ← a.evaluate env
    let right ← b.evaluate env
    return op.apply left right

@[simp] theorem evaluate_lit (env : SymbolTable) (value : Bool) :
    (lit value).evaluate env = .ok value := rfl

@[simp] theorem evaluate_var (env : SymbolTable) (name : String) :
    (var name).evaluate env = env.get name := rfl

/-- A negation has the opposite value, and fails as its operand fails. -/
theorem evaluate_neg (env : SymbolTable) (a : Formula) :
    (neg a).evaluate env = (a.evaluate env).map (!·) := by
  show (a.evaluate env >>= fun value => pure (!value)) = _
  cases a.evaluate env <;> rfl

/-- A binary connective fails as its left operand fails, else as its right one. -/
theorem evaluate_bin (env : SymbolTable) (op : BinaryOp) (a b : Formula) :
    (bin op a b).evaluate env
      = (a.evaluate env).bind fun left =>
          (b.evaluate env).map fun right => op.apply left right := by
  show (a.evaluate env >>= fun left => b.evaluate env >>= fun right =>
    pure (op.apply left right)) = _
  cases a.evaluate env with
  | error e => rfl
  | ok left => cases b.evaluate env <;> rfl

end Formula

/-! ### Evaluation trees -/

/-- A formula with the values of all its subformulas.  The tree has the shape of
the formula, and each node carries the text and the value of its subformula. -/
inductive EvalTree where
  /-- An atom. -/
  | leaf (text : String) (value : Bool)
  /-- A negation over the tree of its operand. -/
  | unary (text : String) (value : Bool) (child : EvalTree)
  /-- A binary connective over the trees of its operands. -/
  | binary (text : String) (value : Bool) (left right : EvalTree)
  deriving DecidableEq, Repr, Inhabited

namespace EvalTree

/-- The text of the formula at the root. -/
def text : EvalTree → String
  | .leaf text _ => text
  | .unary text _ _ => text
  | .binary text _ _ _ => text

/-- The value of the formula at the root. -/
def value : EvalTree → Bool
  | .leaf _ value => value
  | .unary _ value _ => value
  | .binary _ value _ _ => value

/-- The trees directly below the root, from left to right. -/
def children : EvalTree → List EvalTree
  | .leaf _ _ => []
  | .unary _ _ child => [child]
  | .binary _ _ left right => [left, right]

/-- The outline of a tree that gets the number `next` and hangs from `parent?` at
a level. -/
def outlineFrom (level : Nat) (parent? : Option Nat) (next : Nat) :
    EvalTree → List (OutlineEntry EvalTree)
  | .leaf text value => [⟨level, parent?, .leaf text value⟩]
  | .unary text value child =>
    ⟨level, parent?, .unary text value child⟩ ::
      child.outlineFrom (level + 1) (some next) (next + 1)
  | .binary text value left right =>
    let first := left.outlineFrom (level + 1) (some next) (next + 1)
    ⟨level, parent?, .binary text value left right⟩ ::
      (first ++ right.outlineFrom (level + 1) (some next) (next + 1 + first.length))

/-- All nodes of a tree, in preorder. -/
def outline (t : EvalTree) : List (OutlineEntry EvalTree) := t.outlineFrom 0 none 0

end EvalTree

/-- The evaluation tree of a formula in a symbol table, or the first of its
variables that is not there.  The trees of the operands come first, from left to
right; then the formula itself is evaluated for its node. -/
def Formula.evaluateTree (env : SymbolTable) : Formula → Except LookupError EvalTree
  | .lit value => do
    let own ← (Formula.lit value).evaluate env
    return .leaf (Formula.lit value).text own
  | .var name => do
    let own ← (Formula.var name).evaluate env
    return .leaf (Formula.var name).text own
  | .neg a => do
    let child ← a.evaluateTree env
    let own ← (Formula.neg a).evaluate env
    return .unary (Formula.neg a).text own child
  | .bin op a b => do
    let left ← a.evaluateTree env
    let right ← b.evaluateTree env
    let own ← (Formula.bin op a b).evaluate env
    return .binary (Formula.bin op a b).text own left right

namespace Formula

@[simp] theorem evaluateTree_lit (env : SymbolTable) (value : Bool) :
    (lit value).evaluateTree env = .ok (.leaf (lit value).text value) := rfl

theorem evaluateTree_var (env : SymbolTable) (name : String) :
    (var name).evaluateTree env = (env.get name).map (.leaf (var name).text) := by
  show (env.get name >>= fun own => pure (EvalTree.leaf (var name).text own)) = _
  cases env.get name <;> rfl

/-- The tree of a negation fails as that of its operand, and then as the negation
itself. -/
theorem evaluateTree_neg (env : SymbolTable) (a : Formula) :
    (neg a).evaluateTree env
      = (a.evaluateTree env).bind fun child =>
          ((neg a).evaluate env).map fun own => .unary (neg a).text own child := by
  show (a.evaluateTree env >>= fun child => (neg a).evaluate env >>= fun own =>
    pure (EvalTree.unary (neg a).text own child)) = _
  cases a.evaluateTree env with
  | error e => rfl
  | ok child => cases (neg a).evaluate env <;> rfl

/-- The tree of a binary connective fails as that of its left operand, then as that
of its right one, and then as the formula itself. -/
theorem evaluateTree_bin (env : SymbolTable) (op : BinaryOp) (a b : Formula) :
    (bin op a b).evaluateTree env
      = (a.evaluateTree env).bind fun left => (b.evaluateTree env).bind fun right =>
          ((bin op a b).evaluate env).map fun own =>
            .binary (bin op a b).text own left right := by
  show (a.evaluateTree env >>= fun left => b.evaluateTree env >>= fun right =>
    (bin op a b).evaluate env >>= fun own =>
      pure (EvalTree.binary (bin op a b).text own left right)) = _
  cases a.evaluateTree env with
  | error e => rfl
  | ok left =>
    cases b.evaluateTree env with
    | error e => rfl
    | ok right => cases (bin op a b).evaluate env <;> rfl

end Formula

end Sentential
