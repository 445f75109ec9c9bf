import Sentential.Diagram.Drawing

/-!
# Drawing from a stack

A tree is drawn by a loop that keeps a stack of the trees that are still to be drawn, each with
the number of the node that it hangs from.  The loop takes the tree on top, gives the next number
to its root, and puts its children on the stack, the last of them first, so that the first child
is drawn next.  Nothing bounds the stack, and a number is given only when its node is drawn, so
the trees on the stack have none yet.

What is left to draw is at any time the outlines of the trees on the stack, numbered one after
another from the next number on.  A step takes the first entry away and changes nothing else.  So
the loop ends after one step for each node, and it has drawn the outline.

## Main definitions

* `drawStack` — the loop, for trees of any kind.
* `drawn` — the lines of an outline in a drawing.
* `stackOutline` — the outlines of the trees on a stack.
* `IsOutline` — the outlines of trees are preorders of their nodes.

## Main results

* `IsOutline.drawStack_eq` — **the loop ends and draws what is on the stack.**
* `Formula.isOutline`, `EvalTree.isOutline` — it can draw formulas and evaluation trees.
-/

namespace Sentential

open Dot

section Stack

variable {α : Type} (children : α → List α) (statement : Nat → α → Statement)
  (outlineFrom : Nat → Option Nat → Nat → α → List (OutlineEntry α))

/-! ### The loop -/

/-- Puts trees that hang from the node `id` on a stack, one by one and the last of them first. -/
def pushChildren (id : Nat) (trees : List α) (stack : List (α × Option Nat)) :
    List (α × Option Nat) :=
  trees.reverse.foldl (fun stack t => (t, some id) :: stack) stack

/-- The first of the trees is on top. -/
theorem pushChildren_eq (id : Nat) (trees : List α) (stack : List (α × Option Nat)) :
    pushChildren id trees stack = trees.map (·, some id) ++ stack := by
  rw [pushChildren, List.foldl_reverse, List.foldr_cons_eq_append]

/-- The lines that are drawn for the trees on a stack, each with the number of the node that it
hangs from, in `steps` steps at most.  There are none if the stack is not empty then. -/
def drawStack : Nat → Nat → List (α × Option Nat) → Option (List Statement)
  | _, _, [] => some []
  | 0, _, _ :: _ => none
  | steps + 1, next, (t, parent?) :: stack =>
    (drawStack steps (next + 1) (pushChildren next (children t) stack)).map fun lines =>
      statement next t :: (edgeFrom parent? next ++ lines)

/-! ### Outlines -/

/-- The lines of an outline, the entries of which are numbered from `next` on. -/
def drawn (next : Nat) (outline : List (OutlineEntry α)) : List Statement :=
  (outline.zipIdx next).flatMap fun (entry, id) =>
    statement id entry.item :: edgeFrom entry.parent? id

/-- The outlines of the trees on a stack, numbered one after another from `next` on.  Here the
levels of the trees are on the stack too. -/
def stackOutline : Nat → List (OutlineEntry α) → List (OutlineEntry α)
  | _, [] => []
  | next, root :: stack =>
    outlineFrom root.level root.parent? next root.item ++
      stackOutline (next + (outlineFrom root.level root.parent? next root.item).length) stack

theorem stackOutline_append (stack stack' : List (OutlineEntry α)) : ∀ next : Nat,
    stackOutline outlineFrom next (stack ++ stack')
      = stackOutline outlineFrom next stack ++
        stackOutline outlineFrom (next + (stackOutline outlineFrom next stack).length) stack' := by
  induction stack with
  | nil => intro next; rfl
  | cons root stack ih =>
    intro next
    rw [List.cons_append, stackOutline, stackOutline, ih, List.append_assoc, List.length_append,
      Nat.add_assoc]

/-- The outline of a tree is its root and then the outlines of its children, which hang from the
root one level below. -/
def IsOutline : Prop :=
  ∀ (level : Nat) (parent? : Option Nat) (next : Nat) (t : α),
    outlineFrom level parent? next t = ⟨level, parent?, t⟩ ::
      stackOutline outlineFrom (next + 1) ((children t).map fun c => ⟨level + 1, some next, c⟩)

variable {children outlineFrom}

/-- **What is left to draw after a step**: all that was left but the first entry. -/
theorem IsOutline.stackOutline_cons (h : IsOutline children outlineFrom) (next : Nat)
    (root : OutlineEntry α) (stack : List (OutlineEntry α)) :
    stackOutline outlineFrom next (root :: stack) = root :: stackOutline outlineFrom (next + 1)
      ((children root.item).map (fun c => ⟨root.level + 1, some next, c⟩) ++ stack) := by
  rw [stackOutline, h, List.cons_append, stackOutline_append, List.length_cons,
    Nat.add_assoc next 1, Nat.add_comm 1]

/-- **The loop draws the outlines of the trees on the stack**, one entry in each step, and has
ended when there are no more. -/
theorem IsOutline.drawStack_eq (h : IsOutline children outlineFrom) (steps : Nat) :
    ∀ (next : Nat) (stack : List (OutlineEntry α)),
      drawStack children statement steps next (stack.map fun e => (e.item, e.parent?))
        = if (stackOutline outlineFrom next stack).length ≤ steps then
            some (drawn statement next (stackOutline outlineFrom next stack))
          else none := by
  induction steps with
  | zero =>
    intro next stack
    cases stack with
    | nil => rfl
    | cons root stack => rw [h.stackOutline_cons]; rfl
  | succ steps ih =>
    intro next stack
    cases stack with
    | nil => rfl
    | cons root stack =>
      -- the stack after the step is that of the outline with its first entry taken away
      have hstack : pushChildren next (children root.item)
          (stack.map fun e => (e.item, e.parent?))
          = ((children root.item).map (fun c => (⟨root.level + 1, some next, c⟩ : OutlineEntry α))
            ++ stack).map fun e => (e.item, e.parent?) := by
        rw [pushChildren_eq, List.map_append, List.map_map]
        rfl
      rw [List.map_cons, drawStack, hstack, ih, h.stackOutline_cons, List.length_cons]
      simp only [Nat.add_le_add_iff_right]
      split
      · rw [Option.map_some, drawn, drawn, List.zipIdx_cons, List.flatMap_cons]
        rfl
      · rfl

/-- **The loop that starts with one tree ends** after one step for each node, and has drawn the
outline of the tree. -/
theorem IsOutline.drawStack_singleton (h : IsOutline children outlineFrom) (steps : Nat) (t : α) :
    drawStack children statement steps 0 [(t, none)]
      = if (outlineFrom 0 none 0 t).length ≤ steps then
          some (drawn statement 0 (outlineFrom 0 none 0 t))
        else none := by
  have hloop := h.drawStack_eq statement steps 0 [⟨0, none, t⟩]
  rw [stackOutline, stackOutline, List.append_nil] at hloop
  exact hloop

end Stack

/-! ### Formulas and evaluation trees -/

theorem Formula.isOutline : IsOutline Formula.children Formula.outlineFrom := by
  intro level parent? next f
  cases f <;> simp [outlineFrom, children, stackOutline]

theorem EvalTree.isOutline : IsOutline EvalTree.children EvalTree.outlineFrom := by
  intro level parent? next t
  cases t <;> simp [outlineFrom, children, stackOutline]

theorem Formula.drawing_eq_drawn (s : DrawingStyle) (f : Formula) :
    f.drawing s = .defaults [shape s.nodeShape] ::
      drawn (fun id g => g.rootStatement s id) 0 f.outline := rfl

theorem EvalTree.drawing_eq_drawn (s : DrawingStyle) (t : EvalTree) :
    t.drawing s = .defaults [shape s.nodeShape, style "filled"] ::
      drawn (fun id u => u.rootStatement s id) 0 t.outline := rfl

end Sentential
