import Sentential.Outline
import Sentential.Formula.Basic

/-!
# Semantic tableaux

A tableau is a table of nodes that refer to each other by number, with the number
of its root.  A branch node stands for a `∧`, whose two parts hold together, or for
a `⋁`, whose two parts are alternatives; a leaf asserts an atom or denies it.  The
number of a node is its place in the table.

The functions that follow the links of a table go from a node to a parent with a
smaller number and to children with greater numbers, and stop at a link that does
not.  In a tableau that is built from a formula all links are of that kind, also
while it is being built and some branches still lack a child.

## Main definitions

* `Atom`, `Assertion` — what a leaf asserts.
* `Node`, `NodeTable` — the nodes and their table.
* `NodeTable.push`, `NodeTable.attach` — the two ways in which a table grows.
* `NodeTable.ancestors` — the way from a node up to the root.
* `NodeTable.assertedAbove` — what the leaves attached along that way assert.
* `Tableau` — a table with the number of its root.
* `Tableau.outline` — all nodes below the root, in preorder.
* `Tableau.leaves`, `Tableau.openLeaves`, `Tableau.closedLeaves` — the leaves
  from left to right.
-/

namespace Sentential

/-! ### Assertions -/

/-- An atomic formula. -/
inductive Atom where
  /-- A truth value. -/
  | lit (value : Bool)
  /-- A variable. -/
  | var (name : String)
  deriving DecidableEq, Repr, Inhabited

/-- An atom as a formula. -/
def Atom.formula : Atom → Formula
  | .lit value => .lit value
  | .var name => .var name

/-- Whether an atom is a variable. -/
def Atom.isVariable : Atom → Bool
  | .lit _ => false
  | .var _ => true

/-- An atom with the truth value it is asserted to have. -/
structure Assertion where
  /-- The atom. -/
  atom : Atom
  /-- The value it is asserted to have. -/
  state : Bool
  deriving DecidableEq, Repr, Inhabited

namespace Assertion

/-- The assertion of the opposite value. -/
def complement (a : Assertion) : Assertion := ⟨a.atom, !a.state⟩

/-- The formula that an assertion says to be true. -/
def formula (a : Assertion) : Formula :=
  if a.state then a.atom.formula else .neg a.atom.formula

/-- Whether an assertion is contradicted by one of `seen`.  Only assertions about
variables are ever contradicted: that a truth value has the wrong value goes
unnoticed. -/
def contradictedBy (seen : List Assertion) (a : Assertion) : Bool :=
  a.atom.isVariable && seen.contains a.complement

end Assertion

/-- The assertion that an atom or a negated atom makes. -/
def Formula.assertion? : Formula → Option Assertion
  | .lit value => some ⟨.lit value, true⟩
  | .var name => some ⟨.var name, true⟩
  | .neg (.lit value) => some ⟨.lit value, false⟩
  | .neg (.var name) => some ⟨.var name, false⟩
  | _ => none

/-- An assertion is made by the formula that it says to be true. -/
theorem Assertion.assertion?_formula (a : Assertion) : a.formula.assertion? = some a := by
  rcases a with ⟨_ | _, _ | _⟩ <;> rfl

/-- No other formula makes it. -/
theorem Assertion.formula_of_assertion? {f : Formula} {claim : Assertion}
    (h : f.assertion? = some claim) : claim.formula = f := by
  rcases f with value | name | (value | name | _ | _) | _
  all_goals first | cases h; rfl | cases h

/-! ### Nodes -/

/-- What a node of a tableau is. -/
inductive Node.Content where
  /-- A leaf: an assertion, and whether it was contradicted when it was made. -/
  | leaf (claim : Assertion) (closed : Bool)
  /-- A branch with the children attached to it so far, which are alternatives if
  it is disjunctive. -/
  | branch (disjunctive : Bool) (children : List Nat)
  deriving DecidableEq, Repr, Inhabited

/-- A node of a tableau. -/
structure Node where
  /-- The text of the subformula that the node was built from. -/
  text : String
  /-- The number of the parent, which the root has not. -/
  parent? : Option Nat
  /-- What the node is. -/
  content : Node.Content
  deriving DecidableEq, Repr, Inhabited

namespace Node

/-- The numbers of the children of a node, from left to right. -/
def children (n : Node) : List Nat :=
  match n.content with
  | .leaf _ _ => []
  | .branch _ children => children

/-- Whether a node is a branch whose children are alternatives. -/
def isDisjunctive (n : Node) : Bool :=
  match n.content with
  | .leaf _ _ => false
  | .branch disjunctive _ => disjunctive

/-- What a leaf asserts. -/
def assertion? (n : Node) : Option Assertion :=
  match n.content with
  | .leaf claim _ => some claim
  | .branch .. => none

/-- The atom that a leaf is about. -/
def atom? (n : Node) : Option Atom := n.assertion?.map (·.atom)

/-- The value that a leaf asserts. -/
def state? (n : Node) : Option Bool := n.assertion?.map (·.state)

/-- Whether a leaf is closed. -/
def closed? (n : Node) : Option Bool :=
  match n.content with
  | .leaf _ closed => some closed
  | .branch .. => none

/-- Whether a node is a leaf. -/
def isLeaf (n : Node) : Bool := n.state?.isSome

/-- A branch with one more child, behind the others.  A leaf stays as it is. -/
def attach (child : Nat) (n : Node) : Node :=
  match n.content with
  | .leaf .. => n
  | .branch disjunctive children => { n with content := .branch disjunctive (children ++ [child]) }

/-- The name under which the node with a number is shown. -/
def tag (number : Nat) : String := "#" ++ toString number

end Node

/-! ### Tables -/

/-- A table of nodes. -/
structure NodeTable where
  /-- The nodes, each at the place that is its number. -/
  nodes : Array Node
  deriving DecidableEq, Repr, Inhabited

namespace NodeTable

/-- The number of nodes. -/
def size (t : NodeTable) : Nat := t.nodes.size

/-- Whether a table has no nodes. -/
def isEmpty (t : NodeTable) : Bool := t.nodes.isEmpty

/-- The node with a number. -/
def node? (t : NodeTable) (id : Nat) : Option Node := t.nodes[id]?

/-- The number of the parent of a node. -/
def parent? (t : NodeTable) (id : Nat) : Option Nat := (t.node? id).bind Node.parent?

/-- The numbers of the children of a node, from left to right. -/
def children (t : NodeTable) (id : Nat) : List Nat := ((t.node? id).map Node.children).getD []

/-- What a node asserts, if it is a leaf. -/
def assertion? (t : NodeTable) (id : Nat) : Option Assertion := (t.node? id).bind Node.assertion?

/-- The closure mark of a node, which only leaves have. -/
def closed? (t : NodeTable) (id : Nat) : Option Bool := (t.node? id).bind Node.closed?

/-! ### Growing a table -/

/-- The table with one more node, which gets the next free number. -/
def push (t : NodeTable) (n : Node) : NodeTable := ⟨t.nodes.push n⟩

/-- The table with a child attached to the branch `id`, behind the children that it
has already. -/
def attach (t : NodeTable) (id child : Nat) : NodeTable := ⟨t.nodes.modify id (Node.attach child)⟩

@[simp] theorem size_push (t : NodeTable) (n : Node) : (t.push n).size = t.size + 1 :=
  Array.size_push n

@[simp] theorem size_attach (t : NodeTable) (id child : Nat) :
    (t.attach id child).size = t.size := Array.size_modify

/-! ### Going up -/

/-- The nodes on the way from a node up to the root, nearest first and without the
node itself. -/
def ancestors (t : NodeTable) (id : Nat) : List Nat :=
  match t.parent? id with
  | none => []
  | some parent => if _h : parent < id then parent :: t.ancestors parent else []
termination_by id

/-- The node that something hangs from, if there is one, and the ancestors of that
node, nearest first. -/
def lineage (t : NodeTable) : Option Nat → List Nat
  | none => []
  | some id => id :: t.ancestors id

/-- What is asserted by the leaves that are attached somewhere on the way up to the
root from a node that hangs from `parent?`.  A leaf that is not attached yet does
not count, nor does any leaf further down. -/
def assertedAbove (t : NodeTable) (parent? : Option Nat) : List Assertion :=
  (t.lineage parent?).flatMap fun id => (t.children id).filterMap t.assertion?

/-! ### Going down -/

/-- The outline of what is at and below the node `id`, which hangs from `parent?`
at a level. -/
def outlineFrom (t : NodeTable) (level : Nat) (parent? : Option Nat) (id : Nat) :
    List (OutlineEntry Nat) :=
  if _hid : id < t.nodes.size then
    ⟨level, parent?, id⟩ :: (t.children id).flatMap fun child =>
      if _h : id < child then t.outlineFrom (level + 1) (some id) child else []
  else []
termination_by t.nodes.size - id

end NodeTable

/-! ### Tableaux -/

/-- A semantic tableau: the table of its nodes, and where it begins. -/
structure Tableau extends NodeTable where
  /-- The number of the root. -/
  root : Nat
  deriving DecidableEq, Repr, Inhabited

namespace Tableau

/-- All nodes at and below the root, in preorder. -/
def outline (t : Tableau) : List (OutlineEntry Nat) := t.outlineFrom 0 none t.root

/-- The leaves from left to right. -/
def leaves (t : Tableau) : List Nat :=
  (t.outline.map (·.item)).filter fun id => (t.closed? id).isSome

/-- The leaves that are not closed, from left to right. -/
def openLeaves (t : Tableau) : List Nat := t.leaves.filter fun id => t.closed? id == some false

/-- The closed leaves, from left to right. -/
def closedLeaves (t : Tableau) : List Nat := t.leaves.filter fun id => t.closed? id == some true

/-- Whether all leaves are closed. -/
def allLeavesClosed (t : Tableau) : Bool := t.leaves.all fun id => t.closed? id == some true

end Tableau

end Sentential
