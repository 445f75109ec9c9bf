/-!
# Outlines

An outline lists the nodes of a tree in preorder: a node, then what is below its
first child, then what is below its second.  Each entry says how far below the
root its node is, and the number of the node it hangs from, where the nodes are
numbered from zero in the order of the outline.

## Main definitions

* `OutlineEntry` — one node of a tree, as listed in an outline.
* `indent` — a line of text at a level.
-/

namespace Sentential

/-- A node of a tree, as listed in an outline. -/
structure OutlineEntry (α : Type) where
  /-- The number of steps from the root to the node. -/
  level : Nat
  /-- The number of the parent, which the root has not. -/
  parent? : Option Nat
  /-- What stands at the node. -/
  item : α
  deriving DecidableEq, Repr

/-- The same entry about another item. -/
def OutlineEntry.map {α β : Type} (f : α → β) (e : OutlineEntry α) : OutlineEntry β :=
  ⟨e.level, e.parent?, f e.item⟩

/-- A line that is set in by two spaces for each level. -/
def indent (level : Nat) (line : String) : String :=
  String.ofList (List.replicate (2 * level) ' ') ++ line

end Sentential
