import Sentential.Proofs.Layout

/-!
# The leaves of a tableau

The nodes of a block are numbered in the order in which an outline lists them, so the leaves
of a tableau come in the order of their numbers.  The first of them is the end of the way
that goes down through first parts only.  Nothing is attached along this way before the leaf
is made, and so it is open, whatever else the formula says.

## Main results

* `LaidOut.map_item_outlineFrom` — an outline lists the nodes of a block as they are numbered.
* `LaidOut.leaves_eq`, `LaidOut.map_node?_leaves` — the leaves of a tableau, by their numbers
  and as nodes.
* `LaidOut.exists_find?_isLeaf` — the first leaf of a block that finds nothing is open.
* `Tableau.first_leaf_open` — **every tableau has an open leaf.**
-/

namespace Sentential

/-! ### Outlines of blocks -/

namespace NodeTable

variable {t : NodeTable}

/-- The nodes with a mark are the leaves. -/
theorem isSome_closed? (t : NodeTable) (id : Nat) :
    (t.closed? id).isSome = (t.node? id).any Node.isLeaf := by
  rw [closed?]
  rcases t.node? id with _ | ⟨_, _, _ | _⟩ <;> rfl

theorem lt_size_of_node? {id : Nat} {n : Node} (h : t.node? id = some n) : id < t.size :=
  (Array.getElem?_eq_some_iff.mp h).1

/-- The outline of a node is the node and the outlines of its children, as far as these come
later. -/
theorem outlineFrom_of_node? {id : Nat} {n : Node} (h : t.node? id = some n) (level : Nat)
    (parent? : Option Nat) :
    t.outlineFrom level parent? id = ⟨level, parent?, id⟩ :: n.children.flatMap fun child =>
      if id < child then t.outlineFrom (level + 1) (some id) child else [] := by
  have hchildren : t.children id = n.children := by
    rw [children, h]
    rfl
  rw [outlineFrom, dif_pos (show id < t.nodes.size from lt_size_of_node? h), hchildren]
  simp only [dite_eq_ite]

/-- The nodes of a block, by their numbers. -/
theorem Holds.map_node?_range' {next : Nat} {ns : List Node} (h : t.Holds next ns) :
    (List.range' next ns.length).map t.node? = ns.map some := by
  induction ns generalizing next with
  | nil => rfl
  | cons n ns ih =>
    rw [List.length_cons, List.range'_succ, List.map_cons, List.map_cons, h.head, ih h.tail]

end NodeTable

namespace LaidOut

variable {seen : List Assertion} {parent? : Option Nat} {next : Nat} {f : Formula}
  {ns : List Node}

/-- **An outline lists the nodes of a block as they are numbered**, without gaps. -/
theorem map_item_outlineFrom {t : NodeTable} (h : LaidOut seen parent? next f ns) :
    t.Holds next ns → ∀ (level : Nat) (up? : Option Nat),
      (t.outlineFrom level up? next).map (·.item) = List.range' next ns.length := by
  induction h with
  | leaf =>
    intro ht level up?
    rw [NodeTable.outlineFrom_of_node? ht.head]
    rfl
  | @branch seen parent? next op disjunctive a b left right _ ha hb iha ihb =>
    intro ht level up?
    have hleft := ht.tail.left
    have hright := ht.tail.right
    have hpos := ha.length_pos
    have hlt : next < next + 1 + left.length := by omega
    rw [NodeTable.outlineFrom_of_node? ht.head]
    simp only [Node.children, List.flatMap_cons, List.flatMap_nil, List.append_nil,
      Nat.lt_succ_self, hlt, if_true, List.map_cons, List.map_append, iha hleft, ihb hright]
    rw [List.range'_append_1, ← List.length_append, List.length_cons, List.range'_succ]

/-- **The leaves of a tableau come in the order of their numbers.** -/
theorem leaves_eq {t : Tableau} (h : LaidOut seen parent? 0 f ns) (ht : t.Holds 0 ns)
    (hroot : t.root = 0) :
    t.leaves = (List.range' 0 ns.length).filter (Option.any Node.isLeaf ∘ t.node?) := by
  rw [Tableau.leaves, Tableau.outline, hroot, h.map_item_outlineFrom ht]
  exact List.filter_congr fun id _ => t.isSome_closed? id

/-- The leaves of a tableau as nodes. -/
theorem map_node?_leaves {t : Tableau} (h : LaidOut seen parent? 0 f ns) (ht : t.Holds 0 ns)
    (hroot : t.root = 0) : t.leaves.map t.node? = (ns.filter Node.isLeaf).map some := by
  calc t.leaves.map t.node?
      = ((List.range' 0 ns.length).map t.node?).filter (Option.any Node.isLeaf) := by
        rw [h.leaves_eq ht hroot, List.filter_map]
    _ = (ns.filter (Option.any Node.isLeaf ∘ some)).map some := by
        rw [ht.map_node?_range', List.filter_map]
    _ = (ns.filter Node.isLeaf).map some := rfl

/-- **The first leaf of a block that finds nothing on its way up is open.** -/
theorem exists_find?_isLeaf (h : LaidOut seen parent? next f ns) :
    seen = [] → ∃ n, ns.find? Node.isLeaf = some n ∧ n.closed? = some false := by
  induction h with
  | leaf =>
    rintro rfl
    exact ⟨_, rfl, by simp [Node.closed?, Assertion.contradictedBy]⟩
  | branch _ _ _ iha _ =>
    intro hseen
    -- the first part finds what the branch does
    obtain ⟨n, hfind, hopen⟩ := iha hseen
    refine ⟨n, ?_, hopen⟩
    rw [List.find?_cons_of_neg Bool.false_ne_true, List.find?_append, hfind, Option.some_or]

end LaidOut

/-! ### Tableaux -/

namespace Tableau

/-- **Every tableau has an open leaf.**  The first of its leaves is open, whether the formula
can be true or not.  So the open leaves are never none, and never are all leaves closed. -/
theorem first_leaf_open {f : Formula} {t : Tableau} (h : f.tableau = .ok t) :
    (∃ id, t.leaves.head? = some id ∧ t.closed? id = some false ∧
      t.openLeaves.head? = some id) ∧
    t.openLeaves ≠ [] ∧ t.allLeavesClosed = false := by
  obtain ⟨-, ns, hlaid, -, hholds⟩ := Formula.exists_laidOut_of_tableau h
  obtain ⟨n, hfind, hopen⟩ := hlaid.exists_find?_isLeaf rfl
  have hfirst := congrArg List.head?
    (hlaid.map_node?_leaves hholds (Formula.root_of_tableau h))
  rw [List.head?_map, List.head?_map, List.head?_filter, hfind] at hfirst
  obtain ⟨id, hid, hnode⟩ := Option.map_eq_some_iff.mp hfirst
  have hclosed : t.closed? id = some false := by
    rw [NodeTable.closed?, hnode]
    exact hopen
  obtain ⟨rest, hleaves⟩ := List.head?_eq_some_iff.mp hid
  have hopenLeaves : t.openLeaves.head? = some id := by
    rw [openLeaves, hleaves, List.filter_cons_of_pos (by simp [hclosed])]
    rfl
  refine ⟨⟨id, hid, hclosed, hopenLeaves⟩, ?_, ?_⟩
  · intro hnil
    rw [hnil] at hopenLeaves
    cases hopenLeaves
  · rw [allLeavesClosed, hleaves, List.all_cons, hclosed]
    rfl

/-- The tableau of `¬p ∧ (p ∧ p)`, which is false in every table, has two closed leaves and
an open one in front of them. -/
theorem first_leaf_open_contradiction :
    ∃ t, (Formula.conj (.neg (.var "p")) (.conj (.var "p") (.var "p"))).tableau = .ok t ∧
      t.closedLeaves = [3, 4] ∧ t.leaves.head? = some 1 ∧ t.closed? 1 = some false ∧
      t.openLeaves ≠ [] ∧ t.allLeavesClosed = false := by
  obtain ⟨t, ht, hclosed, hleaves⟩ : ∃ t,
      (Formula.conj (.neg (.var "p")) (.conj (.var "p") (.var "p"))).tableau = .ok t ∧
      t.closedLeaves = [3, 4] ∧ t.leaves = [1, 3, 4] := ⟨_, rfl, by cbv, by cbv⟩
  obtain ⟨⟨id, hhead, hopen, -⟩, hne, hall⟩ := first_leaf_open ht
  obtain rfl : 1 = id := by
    rw [hleaves] at hhead
    exact Option.some.inj hhead
  exact ⟨t, ht, hclosed, hhead, hopen, hne, hall⟩

end Tableau

end Sentential
