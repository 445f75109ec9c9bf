import Sentential.Proofs.Answers
import Sentential.Proofs.Places

/-!
# Evaluation trees mirror formulas

To make the tree of a formula, the trees of its parts are made, and then the formula is evaluated
once more from the beginning for its own node.  Either can fail, and the trees of the parts are
made first.  But what is missing for a part is missing for the formula, and a part whose tree
could be made has a value.  So the tree fails as the evaluation does.  If it does not fail, it has
the places of the formula, and at each of them stand the text and the value of what stands there
in the formula.

## Main definitions

* `EvalTree.FollowsFromChildren` — a node has the value that a formula gives to those of its
  children.

## Main results

* `Formula.at?_evaluateTree` — at a place of the tree stands the tree of what stands there in the
  formula.
* `Formula.followsFromChildren_of_evaluateTree` — the value computed from the beginning is the one
  that follows from the children.
* `Formula.evaluateTree_mirrors` — **when there is a tree, and what it looks like.**
-/

namespace Sentential

/-- The root of a tree has as many children as that of `f`, and the value that the connective of
`f` gives to theirs. -/
def EvalTree.FollowsFromChildren (t : EvalTree) : Formula → Prop
  | .lit value => t.children = [] ∧ t.value = value
  | .var _ => t.children = []
  | .neg _ => ∃ child, t.children = [child] ∧ t.value = !child.value
  | .bin op _ _ => ∃ left right, t.children = [left, right] ∧
      match op with
      | .and => t.value = (left.value && right.value)
      | .or => t.value = (left.value || right.value)
      | .cond => t.value = (!left.value || right.value)
      | .iff => t.value = (left.value == right.value)

namespace Formula

variable {env : SymbolTable} {f : Formula} {tree : EvalTree}

/-- **At a place of the tree of a formula stands the tree of what stands there in the formula**, and
nothing if nothing stands there. -/
theorem at?_evaluateTree (h : f.evaluateTree env = .ok tree) (place : List Nat) :
    (tree.at? place).map Except.ok = (f.at? place).map (·.evaluateTree env) := by
  induction place generalizing f tree with
  | nil => exact congrArg some h.symm
  | cons i place ih =>
    have hchild : tree.children[i]?.map Except.ok = f.children[i]?.map (·.evaluateTree env) := by
      rw [← List.getElem?_map, ← List.getElem?_map, (root_of_evaluateTree h).2.2]
    rw [EvalTree.at?_cons, at?_cons]
    cases hg : f.children[i]? with
    | none =>
      rw [hg, Option.map_none, Option.map_eq_none_iff] at hchild
      rw [hchild]
      rfl
    | some g =>
      rw [hg, Option.map_some, Option.map_eq_some_iff] at hchild
      obtain ⟨child, hget, hchild⟩ := hchild
      rw [hget]
      exact ih hchild.symm

/-- **The value that is computed from the beginning follows from those of the children.** -/
theorem followsFromChildren_of_evaluateTree (h : f.evaluateTree env = .ok tree) :
    tree.FollowsFromChildren f := by
  obtain ⟨-, hvalue, hchildren⟩ := root_of_evaluateTree h
  cases f with
  | lit value => exact ⟨List.map_eq_nil_iff.mp hchildren, (Except.ok.inj hvalue).symm⟩
  | var name => exact List.map_eq_nil_iff.mp hchildren
  | neg a =>
    obtain ⟨child, hsingle, ha⟩ := List.map_eq_singleton_iff.mp hchildren
    rw [evaluate_neg, (root_of_evaluateTree ha.symm).2.1] at hvalue
    exact ⟨child, hsingle, (Except.ok.inj hvalue).symm⟩
  | bin op a b =>
    obtain ⟨left, rest, hcons, ha, hrest⟩ := List.map_eq_cons_iff.mp hchildren
    obtain ⟨right, rfl, hb⟩ := List.map_eq_singleton_iff.mp hrest
    rw [evaluate_bin, (root_of_evaluateTree ha.symm).2.1,
      (root_of_evaluateTree hb.symm).2.1] at hvalue
    refine ⟨left, right, hcons, ?_⟩
    cases op <;> exact (Except.ok.inj hvalue).symm

/-- **When a formula has an evaluation tree, and what it looks like.**  There is one exactly if the
formula has a value, and otherwise both fail for the same variable.  The tree has a node at the
places of the formula and nowhere else.  The node at the place of a subformula shows its text and
the value that it has when it is evaluated alone, and this is the value that its connective gives
to those of the children of the node. -/
theorem evaluateTree_mirrors (f : Formula) (env : SymbolTable) :
    ((∃ tree, f.evaluateTree env = .ok tree) ↔ ∃ value, f.evaluate env = .ok value) ∧
    (∀ e, f.evaluateTree env = .error e ↔ f.evaluate env = .error e) ∧
    ∀ tree, f.evaluateTree env = .ok tree →
      (∀ place, (tree.at? place).isSome = (f.at? place).isSome) ∧
      ∀ place g node, f.at? place = some g → tree.at? place = some node →
        node.text = g.text ∧ g.evaluate env = .ok node.value ∧ node.FollowsFromChildren g := by
  refine ⟨?_, fun e => ?_, fun tree htree => ⟨fun place => ?_, fun place g node hg hnode => ?_⟩⟩
  · rw [← map_value_evaluateTree]
    cases f.evaluateTree env <;> simp [Except.map]
  · rw [← map_value_evaluateTree]
    cases f.evaluateTree env <;> simp [Except.map]
  · have hplace := congrArg Option.isSome (at?_evaluateTree htree place)
    rwa [Option.isSome_map, Option.isSome_map] at hplace
  · have hplace := at?_evaluateTree htree place
    rw [hg, hnode, Option.map_some, Option.map_some, Option.some.injEq] at hplace
    obtain ⟨htext, hvalue, -⟩ := root_of_evaluateTree hplace.symm
    exact ⟨htext, hvalue, followsFromChildren_of_evaluateTree hplace.symm⟩

/-- With `p` true and `q` false, the tree of `¬(p→q)∧q` has a false root, and at the place `[0, 0]`
stands the false `p→q`, above the true `p` and the false `q`.  Where only `q` is in the table, the
tree fails for `p`, as the evaluation does. -/
theorem evaluateTree_mirrors_nested :
    (∃ tree node left right,
      (conj (neg (cond (var "p") (var "q"))) (var "q")).evaluateTree
        ⟨[("p", true), ("q", false)]⟩ = .ok tree ∧
      tree.at? [0, 0] = some node ∧ node.text = "(p→q)" ∧ node.children = [left, right] ∧
      node.value = (!left.value || right.value) ∧ node.value = false) ∧
    (conj (neg (cond (var "p") (var "q"))) (var "q")).evaluateTree ⟨[("q", true)]⟩
      = .error ⟨"p"⟩ := by
  obtain ⟨hexists, -, hmirrors⟩ := evaluateTree_mirrors
    (conj (neg (cond (var "p") (var "q"))) (var "q")) ⟨[("p", true), ("q", false)]⟩
  obtain ⟨-, hfails, -⟩ := evaluateTree_mirrors
    (conj (neg (cond (var "p") (var "q"))) (var "q")) ⟨[("q", true)]⟩
  refine ⟨?_, (hfails ⟨"p"⟩).mpr rfl⟩
  obtain ⟨tree, htree⟩ := hexists.mpr ⟨false, rfl⟩
  obtain ⟨hplaces, hnodes⟩ := hmirrors tree htree
  obtain ⟨node, hnode⟩ : ∃ node, tree.at? [0, 0] = some node := by
    rw [← Option.isSome_iff_exists, hplaces]
    rfl
  obtain ⟨htext, hvalue, left, right, hchildren, hfollows⟩ := hnodes [0, 0] _ node rfl hnode
  exact ⟨tree, node, left, right, htree, hnode, htext, hchildren, hfollows,
    (Except.ok.inj hvalue).symm⟩

end Formula

end Sentential
