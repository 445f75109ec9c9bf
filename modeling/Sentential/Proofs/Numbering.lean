import Sentential.Editor.Report
import Sentential.Proofs.EvaluationTrees
import Sentential.Proofs.StackDrawing

/-!
# The numbers of the nodes

A formula and its evaluation tree are drawn by two loops, and the tree is printed as text by a
recursion.  All three go through their trees in preorder, and the trees have the same places.  So
a number means the same subformula in both drawings and among the lines of text, and the two
drawings have the same edges.

Which edges these are can be told from the places: the node at a place hangs from the one at the
place without its last step.

## Main definitions

* `Dot.nodes`, `Dot.edges` — the nodes and the edges of a drawing.
* `Formula.IsEntryAt` — what an entry of an outline says of a place.
* `Report.linesFrom` — the recursion that prints an evaluation tree.

## Main results

* `Formula.isEntryAt_of_outlineFrom` — the outline of a formula lists its places.
* `Formula.map_outlineFrom_evaluateTree` — the outlines of a formula and of its tree are the same.
* `Report.treeLines_eq_linesFrom` — the lines of text are printed by the recursion.
* `Formula.mem_edges_drawing` — the edges of a drawing.
-/

namespace Sentential

/-! ### Nodes and edges of a drawing -/

namespace Dot

/-- Whether a line of a drawing is about a node. -/
def Statement.isNode : Statement → Bool
  | .node _ _ => true
  | _ => false

/-- The two ends of an edge. -/
def Statement.edge? : Statement → Option (Nat × Nat)
  | .edge source target _ => some (source, target)
  | _ => none

/-- The nodes of a drawing. -/
def nodes (lines : List Statement) : List Statement := lines.filter (·.isNode)

/-- The edges of a drawing, from the parent to the child. -/
def edges (lines : List Statement) : List (Nat × Nat) := lines.filterMap (·.edge?)

theorem Statement.edge?_of_isNode {line : Statement} (h : line.isNode = true) :
    line.edge? = none := by
  cases line with
  | defaults attributes => rfl
  | node id attributes => rfl
  | edge source target attributes => cases h

end Dot

open Dot

section Drawn

variable {α : Type} (statement : Nat → α → Statement)

/-- **The nodes of what is drawn** are those of the entries of the outline, with their numbers. -/
theorem nodes_drawn (hnode : ∀ id t, (statement id t).isNode = true)
    (outline : List (OutlineEntry α)) : ∀ next : Nat,
      nodes (drawn statement next outline)
        = (outline.zipIdx next).map fun (entry, id) => statement id entry.item := by
  induction outline with
  | nil => intro next; rfl
  | cons e outline ih =>
    intro next
    have hedge : nodes (edgeFrom e.parent? next) = [] := by cases e.parent? <;> rfl
    have hrest := ih (next + 1)
    unfold nodes drawn at *
    rw [List.zipIdx_cons, List.flatMap_cons, List.filter_append, List.filter_cons,
      if_pos (hnode next e.item), hedge, hrest]
    rfl

theorem length_nodes_drawn (hnode : ∀ id t, (statement id t).isNode = true)
    (outline : List (OutlineEntry α)) (next : Nat) :
    (nodes (drawn statement next outline)).length = outline.length := by
  rw [nodes_drawn statement hnode, List.length_map, List.length_zipIdx]

theorem getElem?_nodes_drawn (hnode : ∀ id t, (statement id t).isNode = true)
    (outline : List (OutlineEntry α)) (k : Nat) :
    (nodes (drawn statement 0 outline))[k]? = outline[k]?.map fun e => statement k e.item := by
  rw [nodes_drawn statement hnode, List.getElem?_map, List.getElem?_zipIdx, Option.map_map,
    Nat.zero_add]
  rfl

/-- The edges of an outline, the entries of which are numbered from `next` on. -/
def outlineEdges (next : Nat) (parents : List (Option Nat)) : List (Nat × Nat) :=
  (parents.zipIdx next).filterMap fun (parent?, id) => parent?.map (·, id)

/-- **The edges of what is drawn** lead from the parents of the entries to the entries. -/
theorem edges_drawn (hnode : ∀ id t, (statement id t).isNode = true)
    (outline : List (OutlineEntry α)) : ∀ next : Nat,
      edges (drawn statement next outline)
        = outlineEdges next (outline.map OutlineEntry.parent?) := by
  induction outline with
  | nil => intro next; rfl
  | cons e outline ih =>
    intro next
    have hrest := ih (next + 1)
    unfold edges drawn outlineEdges at *
    rw [List.zipIdx_cons, List.flatMap_cons, List.filterMap_append,
      List.filterMap_cons_none (Statement.edge?_of_isNode (hnode next e.item)), hrest,
      List.map_cons, List.zipIdx_cons]
    cases e.parent? <;> rfl

theorem mem_outlineEdges_iff {parents : List (Option Nat)} {p k : Nat} :
    (p, k) ∈ outlineEdges 0 parents ↔ parents[k]? = some (some p) := by
  unfold outlineEdges
  rw [List.mem_filterMap]
  constructor
  · rintro ⟨⟨parent?, id⟩, hmem, hparent⟩
    obtain ⟨p', rfl, hp⟩ := Option.map_eq_some_iff.mp hparent
    obtain ⟨rfl, rfl⟩ := Prod.mk.inj hp
    exact List.mk_mem_zipIdx_iff_getElem?.mp hmem
  · exact fun h => ⟨(some p, k), List.mk_mem_zipIdx_iff_getElem?.mpr h, rfl⟩

/-- Where all entries have a parent, there is one edge to each. -/
theorem map_snd_outlineEdges {parents : List (Option Nat)} (h : none ∉ parents) : ∀ next : Nat,
    (outlineEdges next parents).map Prod.snd = List.range' next parents.length := by
  induction parents with
  | nil => intro next; rfl
  | cons parent? parents ih =>
    intro next
    rw [List.mem_cons, not_or] at h
    cases parent? with
    | none => exact absurd rfl h.1
    | some p =>
      have hrest := ih h.2 (next + 1)
      rw [List.length_cons, List.range'_succ, ← hrest]
      rfl

end Drawn

namespace Formula

/-! ### The outline of a formula -/

/-- The entry `e` is about the place of the formula with the number `k`.  The root of the formula
stands at a level and hangs from `parent?`, and has the number `next` in the outline: the entry
has the level of the place, and hangs from the number of the place without its last step. -/
def IsEntryAt (f : Formula) (level : Nat) (parent? : Option Nat) (next k : Nat)
    (e : OutlineEntry Formula) : Prop :=
  ∃ place, f.places[k]? = some place ∧ f.at? place = some e.item ∧
    e.level = level + place.length ∧
    ((place = [] ∧ e.parent? = parent?) ∨
      ∃ q i p, place = q ++ [i] ∧ f.places[p]? = some q ∧ e.parent? = some (next + p))

/-- An entry about a place of a child is about a place of the formula.  The places of the child
with the number `i` begin with `i`, and they are numbered behind `before` other places. -/
theorem IsEntryAt.of_child {f c : Formula} {level next before i k : Nat} {parent? : Option Nat}
    {e : OutlineEntry Formula} (hchild : ∀ place, f.at? (i :: place) = c.at? place)
    (hplaces : ∀ {p q}, c.places[p]? = some q → f.places[before + p]? = some (i :: q))
    (h : c.IsEntryAt (level + 1) (some next) (next + before) k e) :
    f.IsEntryAt level parent? next (before + k) e := by
  obtain ⟨place, hk, hitem, hlevel, hparent⟩ := h
  refine ⟨i :: place, hplaces hk, by rw [hchild, hitem], ?_, .inr ?_⟩
  · rw [hlevel, List.length_cons]
    omega
  · rcases hparent with ⟨rfl, hparent⟩ | ⟨q, j, p, rfl, hp, hparent⟩
    · exact ⟨[], i, 0, rfl, f.getElem?_places_zero, hparent⟩
    · exact ⟨i :: q, j, before + p, rfl, hplaces hp, by rw [hparent, Nat.add_assoc]⟩

/-- **The outline of a formula lists its places** in their order. -/
theorem isEntryAt_of_outlineFrom (f : Formula) :
    ∀ {level : Nat} {parent? : Option Nat} {next k : Nat} {e : OutlineEntry Formula},
      (f.outlineFrom level parent? next)[k]? = some e → f.IsEntryAt level parent? next k e := by
  -- the first entry is the root
  have hroot : ∀ (f : Formula) {level : Nat} {parent? : Option Nat} {next : Nat}
      {e : OutlineEntry Formula}, (f.outlineFrom level parent? next)[0]? = some e →
      f.IsEntryAt level parent? next 0 e := by
    intro f level parent? next e h
    obtain rfl : ⟨level, parent?, f⟩ = e := by cases f <;> exact Option.some.inj h
    exact ⟨[], f.getElem?_places_zero, rfl, rfl, .inl ⟨rfl, rfl⟩⟩
  induction f with
  | lit value =>
    intro level parent? next k e h
    cases k with
    | zero => exact hroot _ h
    | succ k => cases h
  | var name =>
    intro level parent? next k e h
    cases k with
    | zero => exact hroot _ h
    | succ k => cases h
  | neg a ih =>
    intro level parent? next k e h
    cases k with
    | zero => exact hroot _ h
    | succ k =>
      rw [Nat.add_comm]
      refine .of_child (i := 0) (fun _ => rfl) (fun hp => ?_) (ih h)
      rw [places, Nat.add_comm, List.getElem?_cons_succ, List.getElem?_map, hp]
      rfl
  | bin op a b iha ihb =>
    intro level parent? next k e h
    cases k with
    | zero => exact hroot _ h
    | succ k =>
      rw [outlineFrom, List.getElem?_cons_succ] at h
      by_cases hk : k < a.size
      · rw [List.getElem?_append_left (by rw [length_outlineFrom]; exact hk)] at h
        rw [Nat.add_comm]
        refine .of_child (i := 0) (fun _ => rfl) (fun hp => ?_) (iha h)
        rw [places, Nat.add_comm, List.getElem?_cons_succ, List.getElem?_append_left,
          List.getElem?_map, hp]
        · rfl
        · rw [List.length_map]
          exact (List.getElem?_eq_some_iff.mp hp).1
      · obtain ⟨j, rfl⟩ := Nat.exists_eq_add_of_le (Nat.le_of_not_lt hk)
        rw [List.getElem?_append_right (by rw [length_outlineFrom]; omega), length_outlineFrom,
          Nat.add_sub_cancel_left, Nat.add_assoc] at h
        rw [Nat.add_right_comm, Nat.add_comm a.size]
        refine .of_child (i := 1) (fun _ => rfl) (fun {p q} hp => ?_) (ihb h)
        rw [places, Nat.add_assoc, Nat.add_comm 1, List.getElem?_cons_succ,
          List.getElem?_append_right, List.length_map, length_places, Nat.add_sub_cancel_left,
          List.getElem?_map, hp]
        · rfl
        · rw [List.length_map, length_places]
          omega

/-- The entry of the place with the number `k`. -/
theorem exists_entry_of_places {f : Formula} {k : Nat} {place : List Nat}
    (h : f.places[k]? = some place) :
    ∃ e, f.outline[k]? = some e ∧ f.at? place = some e.item ∧ e.level = place.length ∧
      ((place = [] ∧ e.parent? = none) ∨
        ∃ q i p, place = q ++ [i] ∧ f.places[p]? = some q ∧ e.parent? = some p) := by
  have hk : k < f.outline.length := by
    rw [outline, length_outlineFrom, ← length_places]
    exact (List.getElem?_eq_some_iff.mp h).1
  obtain ⟨place', hplace, hitem, hlevel, hparent⟩ :=
    f.isEntryAt_of_outlineFrom (List.getElem?_eq_getElem hk)
  obtain rfl := Option.some.inj (h.symm.trans hplace)
  simp only [Nat.zero_add] at hlevel hparent
  exact ⟨_, List.getElem?_eq_getElem hk, hitem, hlevel, hparent⟩

/-! ### The outline of an evaluation tree -/

/-- **A formula and its evaluation tree have the same outline**, but that in the one of the tree the
trees of the subformulas stand in their places. -/
theorem map_outlineFrom_evaluateTree {env : SymbolTable} {f : Formula} :
    ∀ {tree : EvalTree}, f.evaluateTree env = .ok tree →
      ∀ (level : Nat) (parent? : Option Nat) (next : Nat),
        (tree.outlineFrom level parent? next).map (·.map Except.ok)
          = (f.outlineFrom level parent? next).map (·.map (·.evaluateTree env)) := by
  have hhead : ∀ {f : Formula} {tree : EvalTree}, f.evaluateTree env = .ok tree →
      ∀ (level : Nat) (parent? : Option Nat),
        (⟨level, parent?, tree⟩ : OutlineEntry EvalTree).map Except.ok
          = (⟨level, parent?, f⟩ : OutlineEntry Formula).map (·.evaluateTree env) := by
    intro f tree h level parent?
    rw [OutlineEntry.map, OutlineEntry.map, h]
  induction f with
  | lit value =>
    intro tree h level parent? next
    obtain rfl := Except.ok.inj h
    rfl
  | var name =>
    intro tree h level parent? next
    have htree := h
    rw [evaluateTree_var] at htree
    obtain ⟨own, -, rfl⟩ := exists_of_map_eq_ok htree
    exact congrArg (· :: []) (hhead h level parent?)
  | neg a ih =>
    intro tree h level parent? next
    have htree := h
    rw [evaluateTree_neg] at htree
    obtain ⟨child, hchild, htree⟩ := exists_of_bind_eq_ok htree
    obtain ⟨own, -, rfl⟩ := exists_of_map_eq_ok htree
    rw [EvalTree.outlineFrom, outlineFrom, List.map_cons, List.map_cons, ih hchild,
      hhead h level parent?]
  | bin op a b iha ihb =>
    intro tree h level parent? next
    have htree := h
    rw [evaluateTree_bin] at htree
    obtain ⟨left, hleft, htree⟩ := exists_of_bind_eq_ok htree
    obtain ⟨right, hright, htree⟩ := exists_of_bind_eq_ok htree
    obtain ⟨own, -, rfl⟩ := exists_of_map_eq_ok htree
    have hlength := congrArg List.length (iha hleft (level + 1) (some next) (next + 1))
    rw [List.length_map, List.length_map] at hlength
    rw [EvalTree.outlineFrom, outlineFrom, List.map_cons, List.map_cons, List.map_append,
      List.map_append, iha hleft, hlength, ihb hright, hhead h level parent?]

section EvaluateTree

variable {env : SymbolTable} {f : Formula} {tree : EvalTree}

theorem length_outline_evaluateTree (h : f.evaluateTree env = .ok tree) :
    tree.outline.length = f.size := by
  have hlength := congrArg List.length (map_outlineFrom_evaluateTree h 0 none 0)
  rwa [List.length_map, List.length_map, length_outlineFrom] at hlength

theorem map_parent?_outline_evaluateTree (h : f.evaluateTree env = .ok tree) :
    tree.outline.map OutlineEntry.parent? = f.outline.map OutlineEntry.parent? := by
  have hparents := congrArg (List.map OutlineEntry.parent?)
    (map_outlineFrom_evaluateTree h 0 none 0)
  rwa [List.map_map, List.map_map] at hparents

/-- The entry of a subformula in the outline of the tree. -/
theorem exists_entry_evaluateTree (h : f.evaluateTree env = .ok tree) {k : Nat}
    {e : OutlineEntry Formula} (he : f.outline[k]? = some e) :
    ∃ u, tree.outline[k]? = some ⟨e.level, e.parent?, u⟩ ∧ e.item.evaluateTree env = .ok u := by
  have hentry := congrArg (·[k]?) (map_outlineFrom_evaluateTree h 0 none 0)
  simp only [List.getElem?_map] at hentry
  rw [← outline, he, Option.map_some, Option.map_eq_some_iff] at hentry
  obtain ⟨⟨level, parent?, u⟩, hu, hmap⟩ := hentry
  rw [OutlineEntry.map, OutlineEntry.map, OutlineEntry.mk.injEq] at hmap
  obtain ⟨rfl, rfl, hitem⟩ := hmap
  exact ⟨u, hu, hitem.symm⟩

end EvaluateTree

end Formula

/-! ### The lines of text -/

namespace Report

/-- The line that shows the root of an evaluation tree at a level. -/
def treeLine (level : Nat) (t : EvalTree) : String :=
  indent level (t.text ++ " [" ++ valueText t.value ++ "]")

/-- The lines that are printed for an evaluation tree at a level: one for the root, and then those
of its children from left to right, one level below. -/
def linesFrom (level : Nat) : EvalTree → List String
  | .leaf text value => [treeLine level (.leaf text value)]
  | .unary text value child =>
    treeLine level (.unary text value child) :: linesFrom (level + 1) child
  | .binary text value left right =>
    treeLine level (.binary text value left right) ::
      (linesFrom (level + 1) left ++ linesFrom (level + 1) right)

theorem map_treeLine_outlineFrom (t : EvalTree) :
    ∀ (level : Nat) (parent? : Option Nat) (next : Nat),
      ((t.outlineFrom level parent? next).map fun e => treeLine e.level e.item)
        = linesFrom level t := by
  induction t with
  | leaf text value => intro _ _ _; rfl
  | unary text value child ih =>
    intro level parent? next
    rw [EvalTree.outlineFrom, linesFrom, List.map_cons, ih]
  | binary text value left right ihl ihr =>
    intro level parent? next
    rw [EvalTree.outlineFrom, linesFrom, List.map_cons, List.map_append, ihl, ihr]

/-- **The lines that show an evaluation tree are printed by the recursion.** -/
theorem treeLines_eq_linesFrom (t : EvalTree) : treeLines t = linesFrom 0 t :=
  map_treeLine_outlineFrom t 0 none 0

end Report

namespace Formula

/-! ### The edges of a drawing -/

theorem isNode_rootStatement (s : DrawingStyle) (id : Nat) (f : Formula) :
    (f.rootStatement s id).isNode = true := by
  unfold rootStatement
  split <;> rfl

theorem length_nodes_drawing (s : DrawingStyle) (f : Formula) :
    (nodes (f.drawing s)).length = f.outline.length :=
  length_nodes_drawn (fun id (g : Formula) => g.rootStatement s id) (isNode_rootStatement s) _ 0

theorem getElem?_nodes_drawing (s : DrawingStyle) (f : Formula) (k : Nat) :
    (nodes (f.drawing s))[k]? = f.outline[k]?.map fun e => e.item.rootStatement s k :=
  getElem?_nodes_drawn (fun id (g : Formula) => g.rootStatement s id) (isNode_rootStatement s) _ k

theorem edges_drawing (s : DrawingStyle) (f : Formula) :
    edges (f.drawing s) = outlineEdges 0 (f.outline.map OutlineEntry.parent?) :=
  edges_drawn (fun id (g : Formula) => g.rootStatement s id) (isNode_rootStatement s) _ 0

/-- **The edges of a drawing** are the pairs of a place and the same place with one step more. -/
theorem mem_edges_drawing (s : DrawingStyle) {f : Formula} {p k : Nat} :
    (p, k) ∈ edges (f.drawing s) ↔
      ∃ q i, f.places[p]? = some q ∧ f.places[k]? = some (q ++ [i]) := by
  rw [edges_drawing, mem_outlineEdges_iff, List.getElem?_map, Option.map_eq_some_iff]
  constructor
  · rintro ⟨e, he, hparent⟩
    obtain ⟨place, hk, -, -, ⟨-, hnone⟩ | ⟨q, i, p', rfl, hq, hsome⟩⟩ :=
      f.isEntryAt_of_outlineFrom he
    · rw [hparent] at hnone
      cases hnone
    · rw [hparent, Nat.zero_add] at hsome
      obtain rfl := Option.some.inj hsome
      exact ⟨q, i, hq, hk⟩
  · rintro ⟨q, i, hq, hk⟩
    obtain ⟨e, he, -, -, ⟨hroot, -⟩ | ⟨q', i', p', hplace, hq', hparent⟩⟩ :=
      exists_entry_of_places hk
    · simp at hroot
    · obtain ⟨rfl, -⟩ := List.append_inj' hplace rfl
      have hp : p = p' := (List.getElem?_inj (List.getElem?_eq_some_iff.mp hq).1 f.nodup_places).mp
        (hq.trans hq'.symm)
      exact ⟨e, he, by rw [hparent, hp]⟩

/-- **There is one edge to each node but the root.** -/
theorem map_snd_edges_drawing (s : DrawingStyle) (f : Formula) :
    (edges (f.drawing s)).map Prod.snd = List.range' 1 (f.size - 1) := by
  have hlength : (f.outline.map OutlineEntry.parent?).length = f.size := by
    rw [List.length_map, outline, length_outlineFrom]
  -- only the root has no parent
  have hparent : ∀ k, (f.outline.map OutlineEntry.parent?)[k + 1]? ≠ some none := by
    intro k h
    rw [List.getElem?_map, Option.map_eq_some_iff] at h
    obtain ⟨e, he, hnone⟩ := h
    obtain ⟨place, hk, -, -, ⟨rfl, -⟩ | ⟨_, _, _, -, -, hsome⟩⟩ := f.isEntryAt_of_outlineFrom he
    · have hzero : 0 = k + 1 := (List.getElem?_inj
        (List.getElem?_eq_some_iff.mp f.getElem?_places_zero).1 f.nodup_places).mp
        (f.getElem?_places_zero.trans hk.symm)
      cases hzero
    · rw [hnone] at hsome
      cases hsome
  have hhead : (f.outline.map OutlineEntry.parent?)[0]? = some none := by cases f <;> rfl
  rw [edges_drawing, ← hlength]
  generalize f.outline.map OutlineEntry.parent? = parents at hparent hhead
  cases parents with
  | nil => cases hhead
  | cons parent? parents =>
    obtain rfl := Option.some.inj hhead
    refine map_snd_outlineEdges (fun hmem => ?_) 1
    obtain ⟨k, hk⟩ := List.getElem?_of_mem hmem
    exact hparent k hk

/-! ### The drawing of an evaluation tree -/

/-- The root of an evaluation tree as a node with a number, told from the formula. -/
theorem rootStatement_evaluateTree {env : SymbolTable} {g : Formula} {u : EvalTree}
    (h : g.evaluateTree env = .ok u) (s : DrawingStyle) (id : Nat) :
    u.rootStatement s id = .node id [
      shape (if g.isAtom then s.leafShape else s.nodeShape),
      fillColour (if u.value then s.trueColour else s.falseColour),
      label (g.chars ++ EvalTree.valueMark u.value)] := by
  obtain ⟨htext, -, hchildren⟩ := root_of_evaluateTree h
  have hatom : u.children.isEmpty = g.isAtom := by
    rw [← List.isEmpty_map, hchildren, List.isEmpty_map]
    cases g <;> rfl
  rw [EvalTree.rootStatement, hatom, htext, toList_text]

theorem length_nodes_evalTree_drawing (s : DrawingStyle) (t : EvalTree) :
    (nodes (t.drawing s)).length = t.outline.length :=
  length_nodes_drawn (fun id (u : EvalTree) => u.rootStatement s id) (fun _ _ => rfl) _ 0

theorem getElem?_nodes_evalTree_drawing (s : DrawingStyle) (t : EvalTree) (k : Nat) :
    (nodes (t.drawing s))[k]? = t.outline[k]?.map fun e => e.item.rootStatement s k :=
  getElem?_nodes_drawn (fun id (u : EvalTree) => u.rootStatement s id) (fun _ _ => rfl) _ k

theorem edges_evalTree_drawing (s : DrawingStyle) (t : EvalTree) :
    edges (t.drawing s) = outlineEdges 0 (t.outline.map OutlineEntry.parent?) :=
  edges_drawn (fun id (u : EvalTree) => u.rootStatement s id) (fun _ _ => rfl) _ 0

end Formula

end Sentential
