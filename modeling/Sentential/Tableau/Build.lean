import Sentential.Tableau.Basic

/-!
# Building tableaux

A tableau is built from a formula in negation normal form, first the node of the
formula, then those of its first part, then those of its second.  A child is
attached to its branch only when everything below it is there.

Whether a leaf is closed is decided when it is made, by what the leaves attached so
far on its way up to the root assert.  What comes later is never looked at again,
and it makes no difference whether the children of a branch are alternatives.

## Main definitions

* `TableauError` — why a formula has no tableau.
* `NodeTable.build` — adds the nodes of a subformula to a table.
* `Formula.tableau` — the tableau of a formula.
-/

namespace Sentential

/-- Why a formula has no tableau. -/
inductive TableauError where
  /-- This subformula has no place in a negation normal form. -/
  | unsupported (f : Formula)
  deriving DecidableEq, Repr, Inhabited

/-- What is reported for a formula that has no tableau. -/
def TableauError.message : TableauError → String
  | .unsupported f => "cannot build a tableau for '" ++ f.text ++ "': not in negation-normal form"

/-- How a connective branches in a tableau: `some true` if its operands are
alternatives, `some false` if they hold together, and `none` if it has no place
in one. -/
def BinaryOp.branching? : BinaryOp → Option Bool
  | .and => some false
  | .or => some true
  | .cond => none
  | .iff => none

namespace NodeTable

/-- A leaf that hangs from `parent?` in the table `t`, with the text of a formula. -/
def leaf (t : NodeTable) (parent? : Option Nat) (text : String) (claim : Assertion) : Node :=
  ⟨text, parent?, .leaf claim (claim.contradictedBy (t.assertedAbove parent?))⟩

/-- Adds the nodes of a formula that hangs from `parent?` to a table.  The node of
the formula itself gets the next free number, and the number is returned. -/
def build (t : NodeTable) (parent? : Option Nat) :
    Formula → Except TableauError (NodeTable × Nat)
  | .bin op a b =>
    match op.branching? with
    | none => .error (.unsupported (.bin op a b))
    | some disjunctive => do
      let id := t.size
      let t₁ := t.push ⟨(Formula.bin op a b).text, parent?, .branch disjunctive []⟩
      -- the scan of a leaf below `a` sees nothing at the new branch, and that of a
      -- leaf below `b` sees `a`
      let (t₂, left) ← build t₁ (some id) a
      let (t₃, right) ← build (t₂.attach id left) (some id) b
      return (t₃.attach id right, id)
  | f =>
    match f.assertion? with
    | some claim => .ok (t.push (t.leaf parent? f.text claim), t.size)
    | none => .error (.unsupported f)

/-- An atom or negated atom is built into a single leaf. -/
theorem build_of_assertion {f : Formula} {claim : Assertion} (h : f.assertion? = some claim)
    (t : NodeTable) (parent? : Option Nat) :
    t.build parent? f = .ok (t.push (t.leaf parent? f.text claim), t.size) := by
  rcases f with value | name | a | ⟨op, a, b⟩
  case bin => simp [Formula.assertion?] at h
  all_goals simp only [build, h]

/-- A branch is built into its node, then the nodes of its first part, and with
that attached the nodes of its second part. -/
theorem build_of_branching {op : BinaryOp} {disjunctive : Bool}
    (h : op.branching? = some disjunctive) (t : NodeTable) (parent? : Option Nat)
    (a b : Formula) :
    t.build parent? (.bin op a b)
      = ((t.push ⟨(Formula.bin op a b).text, parent?, .branch disjunctive []⟩).build
          (some t.size) a).bind fun (t₂, left) =>
            ((t₂.attach t.size left).build (some t.size) b).map fun (t₃, right) =>
              (t₃.attach t.size right, t.size) := by
  simp only [build, h]
  show (_ >>= _) = _
  cases (t.push ⟨(Formula.bin op a b).text, parent?, .branch disjunctive []⟩).build
      (some t.size) a with
  | error e => rfl
  | ok built =>
    show ((built.1.attach t.size built.2).build (some t.size) b >>= _) = Except.map _ _
    cases (built.1.attach t.size built.2).build (some t.size) b <;> rfl

/-- A connective that has no place in a tableau is rejected before its operands
are looked at. -/
theorem build_of_not_branching {op : BinaryOp} (h : op.branching? = none) (t : NodeTable)
    (parent? : Option Nat) (a b : Formula) :
    t.build parent? (.bin op a b) = .error (.unsupported (.bin op a b)) := by
  simp only [build, h]

end NodeTable

/-- The tableau of a formula in negation normal form: the table into which it is
built, with the number of its node as the root.  Any other formula is rejected for
its first subformula, in preorder, that has no place in one. -/
def Formula.tableau (f : Formula) : Except TableauError Tableau := do
  let (nodes, root) ← NodeTable.build ⟨#[]⟩ none f
  return ⟨nodes, root⟩

end Sentential
