import Sentential.Proofs.Leaves

/-!
# Tableaux as ordered trees

A table of nodes that refer to each other by number need not be a tree: links can lead out
of it, meet, or go round in a circle.  Then a loop that follows the parents of a node, or one
that keeps a stack of nodes to visit, can fail or go on for ever.  While a tableau is built
its table is no tree either, as some branches lack children.  The finished table is one, and
the numbers of its nodes are its preorder, so that both loops come to an end and find every
node that they should once.

## Main definitions

* `NodeTable.climb` — the loop that follows the parents of a node.
* `NodeTable.visit` — the loop that takes the leaves off a stack of nodes to visit.
* `NodeTable.Preorder` — the nodes of a subtree in preorder.
* `Tableau.WellFormed` — a tableau is an ordered tree that is numbered in preorder.

## Main results

* `NodeTable.Linked.climb_lineage` — the way up is found by the first loop.
* `NodeTable.Preorder.visit_eq` — the leaves of a subtree are found by the second.
* `Tableau.wellFormed_of_tableau` — **every tableau is well formed.**
-/

namespace Sentential

namespace NodeTable

/-! ### Following the links -/

/-- The nodes on the way up from `id?`, found by following the parents for `steps` nodes at
most.  There are none if that is not enough, or if a link leads out of the table. -/
def climb (t : NodeTable) : Nat → Option Nat → Option (List Nat)
  | _, none => some []
  | 0, some _ => none
  | steps + 1, some id =>
    (t.node? id).bind fun n => (t.climb steps n.parent?).map (id :: ·)

/-- The leaves at and below the nodes of a stack, found by visiting `steps` nodes at most.
The first node of the stack is visited next, and its children are put in its place.  There
are none if that is not enough, or if a link leads out of the table. -/
def visit (t : NodeTable) : Nat → List Nat → Option (List Nat)
  | _, [] => some []
  | 0, _ :: _ => none
  | steps + 1, id :: stack =>
    (t.node? id).bind fun n =>
      (t.visit steps (n.children ++ stack)).map fun leaves =>
        if n.isLeaf then id :: leaves else leaves

/-- `t.Preorder id ids` says that `ids` are the nodes of the subtree of `id` in preorder: the
node, then those of its first child, then those of its second. -/
inductive Preorder (t : NodeTable) : Nat → List Nat → Prop where
  /-- A node without children is all of its subtree. -/
  | single {id : Nat} {n : Node} (h : t.node? id = some n) (hn : n.children = []) :
      Preorder t id [id]
  /-- The subtree of a branch goes on with those of its two children. -/
  | branch {id first second : Nat} {n : Node} {ls rs : List Nat} (h : t.node? id = some n)
      (hn : n.children = [first, second]) (hl : Preorder t first ls)
      (hr : Preorder t second rs) : Preorder t id (id :: (ls ++ rs))

/-! ### The way up -/

/-- **The ancestors of a node are found by following the parents**, as each of them comes
earlier than the one before it. -/
theorem Linked.climb_lineage {t : NodeTable} (h : t.Linked) {steps : Nat} :
    ∀ {id : Nat}, id < steps → id < t.size →
      t.climb steps (some id) = some (t.lineage (some id)) := by
  induction steps with
  | zero => exact fun hlt => absurd hlt (Nat.not_lt_zero _)
  | succ steps ih =>
    intro id hlt hsize
    obtain ⟨n, hn⟩ : ∃ n, t.node? id = some n := ⟨_, Array.getElem?_eq_getElem hsize⟩
    have hparent : t.parent? id = n.parent? := by rw [parent?, hn, Option.bind_some]
    have hrest : t.climb steps n.parent? = some (t.lineage n.parent?) := by
      rw [← hparent]
      cases hp : t.parent? id with
      | none => cases steps <;> rfl
      | some parent =>
        have hlink := h.parent_lt hp
        exact ih (Nat.lt_of_lt_of_le hlink (Nat.le_of_lt_succ hlt)) (Nat.lt_trans hlink hsize)
    rw [climb, hn, Option.bind_some, hrest, Option.map_some, lineage, h.ancestors_eq, hparent]

/-- The number of a node bounds that of its ancestors. -/
theorem Linked.climb_parent? {t : NodeTable} (h : t.Linked) {id : Nat} (hid : id < t.size) :
    t.climb id (t.parent? id) = some (t.ancestors id) := by
  rw [h.ancestors_eq]
  cases hp : t.parent? id with
  | none => cases id <;> rfl
  | some parent =>
    have hlt := h.parent_lt hp
    exact h.climb_lineage hlt (Nat.lt_trans hlt hid)

/-- Each node on the way up is the parent of the one before it. -/
theorem Linked.isChain_ancestors {t : NodeTable} (h : t.Linked) (id : Nat) :
    (id :: t.ancestors id).IsChain fun node parent =>
      t.parent? node = some parent ∧ parent < node := by
  induction id using Nat.strongRecOn with
  | _ id ih =>
    cases hp : t.parent? id with
    | none =>
      rw [h.ancestors_eq, hp]
      exact .singleton id
    | some parent =>
      rw [h.ancestors_of_parent? hp]
      exact .cons_cons ⟨hp, h.parent_lt hp⟩ (ih parent (h.parent_lt hp))

/-- The way up ends at a node that hangs from nothing. -/
theorem Linked.getLast?_ancestors {t : NodeTable} (h : t.Linked) {root : Nat}
    (hroot : ∀ id < t.size, t.parent? id = none → id = root) :
    ∀ id < t.size, (id :: t.ancestors id).getLast? = some root := by
  intro id
  induction id using Nat.strongRecOn with
  | _ id ih =>
    intro hid
    cases hp : t.parent? id with
    | none =>
      rw [h.ancestors_eq, hp, hroot id hid hp]
      rfl
    | some parent =>
      have hlt := h.parent_lt hp
      rw [h.ancestors_of_parent? hp, List.getLast?_cons_cons]
      exact ih parent hlt (Nat.lt_trans hlt hid)

/-! ### The way down -/

namespace Preorder

variable {t : NodeTable} {id : Nat} {ids : List Nat}

/-- A subtree has one preorder only. -/
theorem unique (h : t.Preorder id ids) : ∀ {ids' : List Nat}, t.Preorder id ids' → ids' = ids := by
  induction h with
  | single h hn =>
    intro ids' h'
    cases h' with
    | single => rfl
    | branch h' hn' =>
      obtain rfl := Option.some.inj (h.symm.trans h')
      cases hn.symm.trans hn'
  | branch h hn _ _ ihl ihr =>
    intro ids' h'
    cases h' with
    | single h' hn' =>
      obtain rfl := Option.some.inj (h.symm.trans h')
      cases hn.symm.trans hn'
    | branch h' hn' hl' hr' =>
      obtain rfl := Option.some.inj (h.symm.trans h')
      cases hn.symm.trans hn'
      rw [ihl hl', ihr hr']

/-- Every node of a subtree is its root or a child of one of its nodes. -/
theorem eq_or_mem_children (h : t.Preorder id ids) :
    ∀ x ∈ ids, x = id ∨ ∃ parent ∈ ids, x ∈ t.children parent := by
  induction h with
  | single => exact fun x hx => .inl (List.mem_singleton.mp hx)
  | @branch id first second n ls rs h hn _ _ ihl ihr =>
    intro x hx
    have hchildren : t.children id = [first, second] := by
      rw [children, h, Option.map_some, Option.getD_some, hn]
    rcases List.mem_cons.mp hx with rfl | hx
    · exact .inl rfl
    right
    rcases List.mem_append.mp hx with hx | hx
    · rcases ihl x hx with rfl | ⟨parent, hparent, hchild⟩
      · exact ⟨id, List.mem_cons_self, by simp [hchildren]⟩
      · exact ⟨parent, by simp [hparent], hchild⟩
    · rcases ihr x hx with rfl | ⟨parent, hparent, hchild⟩
      · exact ⟨id, List.mem_cons_self, by simp [hchildren]⟩
      · exact ⟨parent, by simp [hparent], hchild⟩

/-- **The loop visits a subtree in preorder**, before the nodes that are further down on the
stack, and takes one step for each node. -/
theorem visit_eq (h : t.Preorder id ids) : ∀ (steps : Nat) (stack : List Nat),
    t.visit (ids.length + steps) (id :: stack)
      = (t.visit steps stack).map (ids.filter (Option.any Node.isLeaf ∘ t.node?) ++ ·) := by
  -- the node at the top of the stack is put in front of what is found below it, if it is a leaf
  have hstep : ∀ {id : Nat} {n : Node}, t.node? id = some n → ∀ (steps : Nat) (stack : List Nat),
      t.visit (steps + 1) (id :: stack) = (t.visit steps (n.children ++ stack)).map
        ([id].filter (Option.any Node.isLeaf ∘ t.node?) ++ ·) := by
    intro id n hn steps stack
    rw [visit, hn, Option.bind_some]
    congr 1
    funext leaves
    cases hleaf : n.isLeaf <;> simp [hn, hleaf]
  induction h with
  | single h hn =>
    intro steps stack
    rw [List.length_singleton, Nat.add_comm, hstep h, hn, List.nil_append]
  | @branch id first second n ls rs h hn _ _ ihl ihr =>
    intro steps stack
    have hlength : (id :: (ls ++ rs)).length + steps = ls.length + (rs.length + steps) + 1 := by
      rw [List.length_cons, List.length_append]
      omega
    rw [hlength, hstep h, hn]
    show (t.visit _ (first :: second :: stack)).map _ = _
    rw [ihl, ihr, Option.map_map, Option.map_map]
    congr 1
    funext leaves
    show [id].filter _ ++ (ls.filter _ ++ (rs.filter _ ++ leaves))
      = ([id] ++ (ls ++ rs)).filter _ ++ leaves
    rw [List.filter_append, List.filter_append, List.append_assoc, List.append_assoc]

end Preorder

end NodeTable

/-! ### The tree of a block -/

namespace LaidOut

variable {seen : List Assertion} {parent? : Option Nat} {next : Nat} {f : Formula}
  {ns : List Node} {t : NodeTable}

/-- The nodes of a block are the preorder of its tree. -/
theorem preorder (h : LaidOut seen parent? next f ns) :
    t.Holds next ns → t.Preorder next (List.range' next ns.length) := by
  induction h with
  | leaf h => exact fun ht => .single ht.head rfl
  | @branch seen parent? next op disjunctive a b left right h ha hb iha ihb =>
    intro ht
    have htree := NodeTable.Preorder.branch ht.head rfl (iha ht.tail.left) (ihb ht.tail.right)
    rwa [List.range'_append_1, ← List.length_append, ← List.range'_succ] at htree

/-- The root of a block is a leaf without children or a branch with two, which come later. -/
theorem content_root (h : LaidOut seen parent? next f ns) (ht : t.Holds next ns) :
    ∃ n, t.node? next = some n ∧ ((∃ claim closed, n.content = .leaf claim closed) ∨
      ∃ disjunctive first second, n.content = .branch disjunctive [first, second] ∧
        first < second) := by
  cases h with
  | leaf => exact ⟨_, ht.head, .inl ⟨_, _, rfl⟩⟩
  | branch _ ha => exact ⟨_, ht.head, .inr ⟨_, _, _, rfl, Nat.lt_add_of_pos_right ha.length_pos⟩⟩

end LaidOut

/-! ### Open and closed leaves -/

namespace Tableau

/-- A leaf is closed if it is not open. -/
theorem closedLeaves_eq_filter_not (t : Tableau) :
    t.closedLeaves = t.leaves.filter fun id => !(t.closed? id == some false) := by
  refine List.filter_congr fun id hid => ?_
  obtain ⟨closed, hclosed⟩ := Option.isSome_iff_exists.mp (List.mem_filter.mp hid).2
  cases closed <;> simp [hclosed]

theorem disjoint_openLeaves_closedLeaves (t : Tableau) :
    t.openLeaves.Disjoint t.closedLeaves := by
  intro id hopen hclosed
  have hmarkOpen := (List.mem_filter.mp hopen).2
  have hmarkClosed := (List.mem_filter.mp hclosed).2
  rw [beq_iff_eq] at hmarkOpen hmarkClosed
  rw [hmarkOpen] at hmarkClosed
  cases hmarkClosed

/-- The open and the closed leaves are all leaves. -/
theorem openLeaves_append_closedLeaves_perm (t : Tableau) :
    (t.openLeaves ++ t.closedLeaves).Perm t.leaves := by
  rw [closedLeaves_eq_filter_not]
  exact List.filter_append_perm _ _

/-! ### Finished tableaux -/

/-- A tableau is an ordered tree whose nodes are numbered in preorder, and what is asked of it
by following its links is found. -/
structure WellFormed (t : Tableau) : Prop where
  /-- There is a root. -/
  root_lt : t.root < t.size
  /-- It is the first node. -/
  root_eq_zero : t.root = 0
  /-- The root is the only node without a parent. -/
  parent?_eq_none_iff : ∀ id < t.size, (t.parent? id = none ↔ id = t.root)
  /-- Any other node hangs from an earlier one, is once among the children of that, and is
  among the children of no other. -/
  parent_of_ne_root : ∀ id < t.size, id ≠ t.root → ∃ parent < id, t.parent? id = some parent ∧
    (t.children parent).count id = 1 ∧ ∀ other ≠ parent, id ∉ t.children other
  /-- The children of a node are later nodes of the table. -/
  child_lt : ∀ {id child : Nat}, child ∈ t.children id → id < child ∧ child < t.size
  /-- The numbers of the nodes are the preorder of the tree. -/
  preorder_root_iff : ∀ ids, t.Preorder t.root ids ↔ ids = List.range t.size
  /-- The nodes without children are those with an atom, a value and a mark. -/
  children_eq_nil_iff : ∀ {id : Nat} {n : Node}, t.node? id = some n →
    (n.children = [] ↔ n.atom?.isSome ∧ n.state?.isSome ∧ n.closed?.isSome)
  /-- All others have two children, and none of the three. -/
  children_of_ne_nil : ∀ {id : Nat} {n : Node}, t.node? id = some n → n.children ≠ [] →
    ∃ first second, n.children = [first, second] ∧ n.atom? = none ∧ n.state? = none ∧
      n.closed? = none
  /-- The loop that follows the parents of a node ends, and finds its ancestors. -/
  climb_eq : ∀ id < t.size, t.climb id (t.parent? id) = some (t.ancestors id)
  /-- Each ancestor is the parent of the node before it, and comes earlier. -/
  isChain_ancestors : ∀ id < t.size,
    (id :: t.ancestors id).IsChain fun node parent => t.parent? node = some parent ∧ parent < node
  /-- The last of them is the root. -/
  getLast?_ancestors : ∀ id < t.size, (id :: t.ancestors id).getLast? = some t.root
  /-- The root has none. -/
  ancestors_root : t.ancestors t.root = []
  /-- The loop that takes the leaves off a stack ends, and finds the leaves. -/
  visit_eq : t.visit t.size [t.root] = some t.leaves
  /-- They come in the order of their numbers, each once. -/
  pairwise_leaves : t.leaves.Pairwise (· < ·)
  /-- They are the nodes without children. -/
  mem_leaves_iff : ∀ {id : Nat}, id ∈ t.leaves ↔ id < t.size ∧ t.children id = []
  /-- The open ones are some of them, in the same order. -/
  openLeaves_sublist : t.openLeaves.Sublist t.leaves
  /-- So are the closed ones. -/
  closedLeaves_sublist : t.closedLeaves.Sublist t.leaves
  /-- No leaf is both. -/
  disjoint_openLeaves_closedLeaves : t.openLeaves.Disjoint t.closedLeaves
  /-- Together they are all leaves. -/
  openLeaves_append_closedLeaves_perm : (t.openLeaves ++ t.closedLeaves).Perm t.leaves

section Finished

variable {f : Formula} {t : Tableau}

/-- **Every node of a tableau is the root of a block.** -/
theorem exists_block_of_tableau (h : f.tableau = .ok t) {id : Nat} {n : Node}
    (hn : t.node? id = some n) :
    ∃ seen parent? g ns, LaidOut seen parent? id g ns ∧ t.Holds id ns := by
  obtain ⟨-, ns, hlaid, hnodes, hholds⟩ := Formula.exists_laidOut_of_tableau h
  have hid : id < 0 + ns.length := by
    rw [Nat.zero_add, ← NodeTable.size_of_nodes_eq hnodes]
    exact NodeTable.lt_size_of_node? hn
  exact hlaid.exists_block hholds id (Nat.zero_le id) hid

/-- A node of a tableau is a leaf, or a branch with two children. -/
theorem content_of_tableau (h : f.tableau = .ok t) {id : Nat} {n : Node}
    (hn : t.node? id = some n) : (∃ claim closed, n.content = .leaf claim closed) ∨
      ∃ disjunctive first second, n.content = .branch disjunctive [first, second] ∧
        first < second := by
  obtain ⟨_, _, _, _, hblock, hholds⟩ := exists_block_of_tableau h hn
  obtain ⟨n', hn', hcontent⟩ := hblock.content_root hholds
  rwa [← Option.some.inj (hn.symm.trans hn')] at hcontent

/-- The leaves of a tableau are the nodes without children, in the order of their numbers. -/
theorem leaves_eq_filter_range (h : f.tableau = .ok t) :
    t.leaves = (List.range t.size).filter fun id => (t.children id).isEmpty := by
  obtain ⟨-, ns, hlaid, hnodes, hholds⟩ := Formula.exists_laidOut_of_tableau h
  have hsize : t.size = ns.length := NodeTable.size_of_nodes_eq hnodes
  rw [hlaid.leaves_eq hholds (Formula.root_of_tableau h), hsize, List.range_eq_range']
  refine List.filter_congr fun id hid => ?_
  have hlt : id < t.size := by
    rw [hsize]
    simpa using hid
  have hn : t.node? id = some _ := Array.getElem?_eq_getElem hlt
  rw [Function.comp_apply, NodeTable.children, hn]
  rcases content_of_tableau h hn with ⟨_, _, hc⟩ | ⟨_, _, _, hc, -⟩ <;>
    simp [Node.children, Node.isLeaf, Node.state?, Node.assertion?, hc]

/-- **Every node of a tableau but the root is a child once**, of the node that it hangs
from. -/
theorem parent_of_ne_root (h : f.tableau = .ok t)
    (hpreorder : t.Preorder t.root (List.range t.size)) {id : Nat} (hid : id < t.size)
    (hne : id ≠ t.root) :
    ∃ parent < id, t.parent? id = some parent ∧ (t.children parent).count id = 1 ∧
      ∀ other ≠ parent, id ∉ t.children other := by
  obtain ⟨hlinked, -⟩ := Formula.exists_laidOut_of_tableau h
  obtain ⟨parent, -, hchild⟩ :=
    (hpreorder.eq_or_mem_children id (List.mem_range.mpr hid)).resolve_left hne
  have hp := hlinked.parent?_child hchild
  have hnodup : (t.children parent).Nodup := by
    rw [NodeTable.children]
    cases hn : t.node? parent with
    | none => exact List.nodup_nil
    | some n =>
      rcases content_of_tableau h hn with ⟨_, _, hc⟩ | ⟨_, _, _, hc, hlt⟩
      · simp [Node.children, hc]
      · simp [Node.children, hc, Nat.ne_of_lt hlt]
  refine ⟨parent, hlinked.parent_lt hp, hp, hnodup.count.trans (if_pos hchild), ?_⟩
  intro other hother hmem
  exact hother (Option.some.inj ((hlinked.parent?_child hmem).symm.trans hp))

/-- The root hangs from nothing, and any other node from some node. -/
theorem parent?_eq_none_iff_of_tableau (h : f.tableau = .ok t)
    (hpreorder : t.Preorder t.root (List.range t.size)) {id : Nat} (hid : id < t.size) :
    t.parent? id = none ↔ id = t.root := by
  obtain ⟨-, ns, hlaid, -, hholds⟩ := Formula.exists_laidOut_of_tableau h
  constructor
  · intro hnone
    by_contra hne
    obtain ⟨parent, -, hp, -⟩ := parent_of_ne_root h hpreorder hid hne
    rw [hnone] at hp
    cases hp
  · rintro rfl
    rw [Formula.root_of_tableau h]
    exact hlaid.parent?_root hholds

/-- **Every tableau is an ordered tree that is numbered in preorder**, all of whose nodes are
found by the loops that follow its links. -/
theorem wellFormed_of_tableau (h : f.tableau = .ok t) : t.WellFormed := by
  obtain ⟨hlinked, ns, hlaid, hnodes, hholds⟩ := Formula.exists_laidOut_of_tableau h
  have hsize : t.size = ns.length := NodeTable.size_of_nodes_eq hnodes
  have hroot := Formula.root_of_tableau h
  have hpos : t.root < t.size := by
    rw [hroot, hsize]
    exact hlaid.length_pos
  have hpreorder : t.Preorder t.root (List.range t.size) := by
    rw [hroot, hsize, List.range_eq_range']
    exact hlaid.preorder hholds
  have hroot_iff : ∀ id < t.size, (t.parent? id = none ↔ id = t.root) :=
    fun id hid => parent?_eq_none_iff_of_tableau h hpreorder hid
  have hleaves := leaves_eq_filter_range h
  constructor
  case root_lt => exact hpos
  case root_eq_zero => exact hroot
  case parent?_eq_none_iff => exact hroot_iff
  case parent_of_ne_root => exact fun id hid hne => parent_of_ne_root h hpreorder hid hne
  case child_lt =>
    intro id child hchild
    have hp := hlinked.parent?_child hchild
    exact ⟨hlinked.parent_lt hp, NodeTable.lt_size_of_parent? hp⟩
  case preorder_root_iff =>
    intro ids
    exact ⟨hpreorder.unique, fun hids => hids ▸ hpreorder⟩
  case children_eq_nil_iff =>
    intro id n hn
    rcases content_of_tableau h hn with ⟨_, _, hc⟩ | ⟨_, _, _, hc, -⟩ <;>
      simp [Node.children, Node.atom?, Node.state?, Node.assertion?, Node.closed?, hc]
  case children_of_ne_nil =>
    intro id n hn hne
    rcases content_of_tableau h hn with ⟨_, _, hc⟩ | ⟨_, first, second, hc, -⟩
    · simp [Node.children, hc] at hne
    · refine ⟨first, second, ?_⟩
      simp [Node.children, Node.atom?, Node.state?, Node.assertion?, Node.closed?, hc]
  case climb_eq => exact fun id hid => hlinked.climb_parent? hid
  case isChain_ancestors => exact fun id _ => hlinked.isChain_ancestors id
  case getLast?_ancestors =>
    exact hlinked.getLast?_ancestors fun id hid => (hroot_iff id hid).mp
  case ancestors_root =>
    rw [hlinked.ancestors_eq, (hroot_iff t.root hpos).mpr rfl]
    rfl
  case visit_eq =>
    have hvisit := hpreorder.visit_eq 0 []
    rw [List.length_range, Nat.add_zero] at hvisit
    rw [hvisit, NodeTable.visit, Option.map_some, List.append_nil, hlaid.leaves_eq hholds hroot,
      hsize, List.range_eq_range']
  case pairwise_leaves =>
    rw [hleaves]
    exact List.pairwise_lt_range.filter _
  case mem_leaves_iff =>
    intro id
    rw [hleaves]
    simp
  case openLeaves_sublist => exact List.filter_sublist
  case closedLeaves_sublist => exact List.filter_sublist
  case disjoint_openLeaves_closedLeaves => exact t.disjoint_openLeaves_closedLeaves
  case openLeaves_append_closedLeaves_perm => exact t.openLeaves_append_closedLeaves_perm

end Finished

/-- The tableau of `(p ⋁ ¬q) ∧ ¬p` has its nodes in preorder, from the branch `⋁` and its two
leaves to the leaf `¬p`.  The leaf `¬q` has two ancestors, which are found in three steps at
most; and visiting all five nodes finds the three leaves. -/
theorem wellFormed_of_tableau_junctions :
    ∃ t, (Formula.conj (.disj (.var "p") (.neg (.var "q"))) (.neg (.var "p"))).tableau = .ok t ∧
      t.Preorder 0 [0, 1, 2, 3, 4] ∧ t.climb 3 (t.parent? 3) = some [1, 0] ∧
      t.visit 5 [0] = some [2, 3, 4] ∧ (t.children 0).count 4 = 1 := by
  obtain ⟨t, ht, hsize, hancestors, hleaves, hparent⟩ : ∃ t,
      (Formula.conj (.disj (.var "p") (.neg (.var "q"))) (.neg (.var "p"))).tableau = .ok t ∧
      t.size = 5 ∧ t.ancestors 3 = [1, 0] ∧ t.leaves = [2, 3, 4] ∧ t.parent? 4 = some 0 :=
    ⟨_, rfl, by cbv, by cbv, by cbv, by cbv⟩
  have hwell := wellFormed_of_tableau ht
  have hroot := hwell.root_eq_zero
  have hclimb := hwell.climb_eq 3 (by rw [hsize]; decide)
  have hvisit := hwell.visit_eq
  have hpreorder := (hwell.preorder_root_iff [0, 1, 2, 3, 4]).mpr (by rw [hsize]; rfl)
  obtain ⟨parent, -, hp, hcount, -⟩ :=
    hwell.parent_of_ne_root 4 (by rw [hsize]; decide) (by rw [hroot]; decide)
  obtain rfl : 0 = parent := Option.some.inj (hparent.symm.trans hp)
  rw [hancestors] at hclimb
  rw [hsize, hleaves, hroot] at hvisit
  rw [hroot] at hpreorder
  exact ⟨t, ht, hpreorder, hclimb, hvisit, hcount⟩

end Tableau

end Sentential
