import Sentential.Diagram.Dot
import Sentential.Formula.Outline
import Sentential.Valuation.Evaluation
import Sentential.Tableau.Build

/-!
# Drawings of formulas, evaluation trees and tableaux

Formulas and evaluation trees are drawn node by node in preorder, each node with
the edge that leads to it; a tableau is drawn with all its nodes first.

## Main definitions

* `DrawingStyle` — the shapes, colours and line styles.
* `Formula.drawing` — the tree of connectives and atoms.
* `EvalTree.drawing` — the tree of subformulas, coloured by their values.
* `Tableau.drawing` — the tableau, with its closed leaves marked.
-/

namespace Sentential

/-- How drawings look.  The words are written as they are. -/
structure DrawingStyle where
  /-- The shape of connectives and branches. -/
  nodeShape : String := "box"
  /-- The shape of atoms and assertions. -/
  leafShape : String := "ellipse"
  /-- The colour of true subformulas. -/
  trueColour : String := "palegreen"
  /-- The colour of false subformulas. -/
  falseColour : String := "lightpink"
  /-- The colour of closed leaves. -/
  closedColour : String := "gray80"
  /-- The line style below a branch whose children hold together. -/
  conjunctiveEdge : String := "solid"
  /-- The line style below a branch whose children are alternatives. -/
  disjunctiveEdge : String := "dashed"
  deriving DecidableEq, Repr, Inhabited

namespace Dot

/-- Sets the shape of a node. -/
def shape (s : String) : Attribute := ⟨"shape", .word s⟩

/-- Sets the style of a node or edge. -/
def style (s : String) : Attribute := ⟨"style", .word s⟩

/-- Sets the colour a node is filled with. -/
def fillColour (s : String) : Attribute := ⟨"fillcolor", .word s⟩

/-- Sets the label of a node. -/
def label (s : List Char) : Attribute := ⟨"label", .label s⟩

/-- The edge from the parent of a node, if it has one. -/
def edgeFrom (parent? : Option Nat) (id : Nat) : List Statement :=
  match parent? with
  | none => []
  | some parent => [.edge parent id []]

end Dot

open Dot

/-! ### Formulas -/

/-- The label of the root of a formula: its connective, or the atom itself. -/
def Formula.rootLabel : Formula → List Char
  | .lit value => (Formula.lit value).chars
  | .var name => (Formula.var name).chars
  | .neg _ => [Connective.not.symbol]
  | .bin op _ _ => [op.symbol]

/-- The root of a formula as a node with a number. -/
def Formula.rootStatement (s : DrawingStyle) (id : Nat) (f : Formula) : Statement :=
  if f.isAtom then .node id [shape s.leafShape, label f.rootLabel]
  else .node id [label f.rootLabel]

/-- A formula as a drawing. -/
def Formula.drawing (s : DrawingStyle) (f : Formula) : List Statement :=
  .defaults [shape s.nodeShape] ::
    f.outline.zipIdx.flatMap fun (entry, id) =>
      entry.item.rootStatement s id :: edgeFrom entry.parent? id

/-! ### Evaluation trees -/

/-- How a value is shown behind the text of a subformula. -/
def EvalTree.valueMark (value : Bool) : List Char := [' ', '[', Formula.valueChar value, ']']

/-- The root of an evaluation tree as a node with a number. -/
def EvalTree.rootStatement (s : DrawingStyle) (id : Nat) (t : EvalTree) : Statement :=
  .node id [
    shape (if t.children.isEmpty then s.leafShape else s.nodeShape),
    fillColour (if t.value then s.trueColour else s.falseColour),
    label (t.text.toList ++ valueMark t.value)]

/-- An evaluation tree as a drawing. -/
def EvalTree.drawing (s : DrawingStyle) (t : EvalTree) : List Statement :=
  .defaults [shape s.nodeShape, style "filled"] ::
    t.outline.zipIdx.flatMap fun (entry, id) =>
      entry.item.rootStatement s id :: edgeFrom entry.parent? id

/-! ### Tableaux -/

namespace Node

/-- The label of a leaf: its text without the negations in front, the asserted
value, and a cross if the leaf is closed. -/
def leafLabel (n : Node) (state closed : Bool) : List Char :=
  n.text.toList.dropWhile (· == Connective.not.symbol) ++ [' ', '=', ' ', Formula.valueChar state]
    ++ (if closed then [' ', '✗'] else [])

/-- A node of a tableau, with its number, as a node of a drawing. -/
def statement (s : DrawingStyle) (id : Nat) (n : Node) : Statement :=
  match n.content with
  | .branch .. => .node id [label n.text.toList]
  | .leaf claim true =>
    .node id [
      shape s.leafShape,
      style "filled",
      fillColour s.closedColour,
      label (n.leafLabel claim.state true)]
  | .leaf claim false => .node id [shape s.leafShape, label (n.leafLabel claim.state false)]

/-- The edges from a node of a tableau to its children. -/
def edges (s : DrawingStyle) (id : Nat) (n : Node) : List Statement :=
  n.children.map fun child =>
    .edge id child [style (if n.isDisjunctive then s.disjunctiveEdge else s.conjunctiveEdge)]

end Node

/-- A tableau as a drawing. -/
def Tableau.drawing (s : DrawingStyle) (t : Tableau) : List Statement :=
  .defaults [shape s.nodeShape] ::
    ((t.nodes.toList.zipIdx.map fun (n, id) => n.statement s id) ++
      t.nodes.toList.zipIdx.flatMap fun (n, id) => n.edges s id)

end Sentential
