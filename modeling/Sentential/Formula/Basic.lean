import Sentential.Connective

/-!
# Formulas

A formula of sentential logic is built from the two truth values and from named
variables by negation and the binary connectives.  The names are arbitrary
strings: which of them can be typed, and which can be given a value, is the
business of other modules.

## Main definitions

* `Formula` — the formulas.
* `Formula.chars`, `Formula.text` — the canonical text, with one pair of
  parentheses around each binary connective.
* `Formula.subformulas` — all subformulas, in preorder.
* `Formula.count`, `Formula.depth` — two measures of size.
* `Formula.occurrences`, `Formula.variableNames` — the variables from left to right,
  each as often as it occurs and each once.
* `Formula.isNnf` — negation normal form, as a check.
-/

namespace Sentential

/-- A formula of sentential logic. -/
inductive Formula where
  /-- A truth value, written `T` or `F`. -/
  | lit (value : Bool)
  /-- A variable, written as its name. -/
  | var (name : String)
  /-- A negation, written `¬` in front of its operand. -/
  | neg (operand : Formula)
  /-- A binary connective between two operands, written in parentheses. -/
  | bin (op : BinaryOp) (left right : Formula)
  deriving DecidableEq, Repr, Inhabited

namespace Formula

/-- The conjunction of two formulas. -/
abbrev conj (a b : Formula) : Formula := .bin .and a b

/-- The disjunction of two formulas. -/
abbrev disj (a b : Formula) : Formula := .bin .or a b

/-- The conditional from one formula to another. -/
abbrev cond (a b : Formula) : Formula := .bin .cond a b

/-- The biconditional of two formulas. -/
abbrev iff (a b : Formula) : Formula := .bin .iff a b

/-! ### Canonical text -/

/-- The letter a truth value is written with. -/
def valueChar (value : Bool) : Char := if value then 'T' else 'F'

/-- The characters of the canonical text of a formula.  Parentheses stand around
each binary connective and nowhere else, so the text shows the whole shape. -/
def chars : Formula → List Char
  | .lit value => [valueChar value]
  | .var name => name.toList
  | .neg a => Connective.not.symbol :: a.chars
  | .bin op a b => '(' :: (a.chars ++ op.symbol :: (b.chars ++ [')']))

/-- The canonical text of a formula. -/
def text (f : Formula) : String := String.ofList f.chars

@[simp] theorem chars_lit (value : Bool) : (lit value).chars = [valueChar value] := rfl

@[simp] theorem chars_var (name : String) : (var name).chars = name.toList := rfl

@[simp] theorem chars_neg (a : Formula) :
    (neg a).chars = Connective.not.symbol :: a.chars := rfl

@[simp] theorem chars_bin (op : BinaryOp) (a b : Formula) :
    (bin op a b).chars = '(' :: (a.chars ++ op.symbol :: (b.chars ++ [')'])) := rfl

@[simp] theorem toList_text (f : Formula) : f.text.toList = f.chars := String.toList_ofList

instance : ToString Formula := ⟨text⟩

/-! ### Shape -/

/-- Whether a formula is a truth value or a variable. -/
def isAtom : Formula → Bool
  | .lit _ => true
  | .var _ => true
  | .neg _ => false
  | .bin .. => false

/-- The atoms are the truth values and the variables. -/
theorem isAtom_iff {a : Formula} :
    a.isAtom = true ↔ (∃ value, a = lit value) ∨ ∃ name, a = var name := by
  cases a <;> simp [isAtom]

/-- Whether the root of a formula is a negation. -/
def isNegation : Formula → Bool
  | .neg _ => true
  | _ => false

/-- The immediate parts of a formula, from left to right. -/
def children : Formula → List Formula
  | .lit _ => []
  | .var _ => []
  | .neg a => [a]
  | .bin _ a b => [a, b]

/-- The connective at the root of a formula, if it is a binary one. -/
def mainConnective? : Formula → Option BinaryOp
  | .bin op _ _ => some op
  | _ => none

/-- Whether the root of a formula is a binary connective. -/
def isBinary (f : Formula) : Bool := f.mainConnective?.isSome

/-- All subformulas of a formula, itself first, then those of its parts from left
to right. -/
def subformulas : Formula → List Formula
  | .lit value => [.lit value]
  | .var name => [.var name]
  | .neg a => .neg a :: a.subformulas
  | .bin op a b => .bin op a b :: (a.subformulas ++ b.subformulas)

/-- The number of subformulas, the formula itself included, that satisfy `p`. -/
def count (p : Formula → Bool) : Formula → Nat
  | .lit value => (p (.lit value)).toNat
  | .var name => (p (.var name)).toNat
  | .neg a => (p (.neg a)).toNat + a.count p
  | .bin op a b => (p (.bin op a b)).toNat + (a.count p + b.count p)

/-- The number of nodes of a formula. -/
def size (f : Formula) : Nat := f.count fun _ => true

/-- How deep a formula nests.  An atom has depth one. -/
def depth : Formula → Nat
  | .lit _ => 1
  | .var _ => 1
  | .neg a => 1 + a.depth
  | .bin _ a b => 1 + max a.depth b.depth

@[simp] theorem size_lit (value : Bool) : (lit value).size = 1 := rfl

@[simp] theorem size_var (name : String) : (var name).size = 1 := rfl

@[simp] theorem size_neg (a : Formula) : (neg a).size = 1 + a.size := rfl

@[simp] theorem size_bin (op : BinaryOp) (a b : Formula) :
    (bin op a b).size = 1 + (a.size + b.size) := rfl

/-- **Counting is counting in the list of subformulas.** -/
theorem count_eq_countP (p : Formula → Bool) (f : Formula) :
    f.count p = f.subformulas.countP p := by
  induction f with
  | lit value => cases h : p (.lit value) <;> simp [count, subformulas, h]
  | var name => cases h : p (.var name) <;> simp [count, subformulas, h]
  | neg a ih => cases h : p (.neg a) <;> simp [count, subformulas, h, ih]; omega
  | bin op a b iha ihb =>
    cases h : p (.bin op a b) <;> simp [count, subformulas, h, iha, ihb]; omega

/-! ### Variables -/

/-- The names of the variables of a formula from left to right, each as often as
it occurs. -/
def occurrences : Formula → List String
  | .lit _ => []
  | .var name => [name]
  | .neg a => a.occurrences
  | .bin _ a b => a.occurrences ++ b.occurrences

/-- Appends to `seen` the variables of a formula that are not in it yet, in the
order in which they are met. -/
def collect (seen : List String) : Formula → List String
  | .lit _ => seen
  | .var name => if seen.contains name then seen else seen ++ [name]
  | .neg a => a.collect seen
  | .bin _ a b => b.collect (a.collect seen)

/-- The variables of a formula, each once, in the order in which they are first
met from the left. -/
def variableNames (f : Formula) : List String := f.collect []

/-! ### Negation normal form -/

/-- Whether a formula has no connectives but `∧` and `⋁`, and negations of atoms
only. -/
def isNnf : Formula → Bool
  | .lit _ => true
  | .var _ => true
  | .neg a => a.isAtom
  | .bin .and a b => a.isNnf && b.isNnf
  | .bin .or a b => a.isNnf && b.isNnf
  | .bin .cond _ _ => false
  | .bin .iff _ _ => false

end Formula

end Sentential
