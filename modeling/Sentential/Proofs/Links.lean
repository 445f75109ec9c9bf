import Mathlib.Data.List.Basic
import Sentential.Tableau.Basic

/-!
# The links of a growing table

While a tableau is built its table grows in two ways: nodes are added behind those that
are there, and children are attached to branches.  Neither changes the way up from a
node that is there already.  So a scan on that way finds what it would have found
before, apart from the children attached in between to the nodes it passes.

## Main definitions

* `NodeTable.append` — a table with more nodes behind those it has.
* `NodeTable.Linked` — all links of a table go up to an earlier node and back down.
* `NodeTable.Below` — a node lies in the subtree of another.

## Main results

* `NodeTable.ancestors_congr` — the way up depends on the parents of earlier nodes only.
* `NodeTable.Linked.assertedAbove_some` — what a scan finds, node by node.
* `NodeTable.Linked.assertedAbove_append` — what it still finds when the table has grown.
-/

namespace Sentential

namespace Node

@[simp] theorem parent?_attach (child : Nat) (n : Node) : (n.attach child).parent? = n.parent? := by
  rcases n with ⟨_, _, _ | _⟩ <;> rfl

@[simp] theorem assertion?_attach (child : Nat) (n : Node) :
    (n.attach child).assertion? = n.assertion? := by
  rcases n with ⟨_, _, _ | _⟩ <;> rfl

theorem mem_children_attach {child c : Nat} {n : Node} (h : c ∈ (n.attach child).children) :
    c ∈ n.children ∨ c = child := by
  rcases n with ⟨_, _, _ | _⟩
  · exact Or.inl h
  · simpa [attach, children] using h

end Node

namespace NodeTable

/-- A table with more nodes behind those it has. -/
def append (t : NodeTable) (ns : List Node) : NodeTable := ⟨t.nodes ++ ns.toArray⟩

/-! ### Looking up a node -/

theorem lt_size_of_parent? {t : NodeTable} {id parent : Nat} (h : t.parent? id = some parent) :
    id < t.size := by
  obtain ⟨n, hn, -⟩ := Option.bind_eq_some_iff.mp h
  exact (Array.getElem?_eq_some_iff.mp hn).1

theorem push_eq_append (t : NodeTable) (n : Node) : t.push n = t.append [n] := by
  simp [push, append]

@[simp] theorem size_append (t : NodeTable) (ns : List Node) :
    (t.append ns).size = t.size + ns.length := by
  simp [append, size]

theorem append_append (t : NodeTable) (ns ms : List Node) :
    (t.append ns).append ms = t.append (ns ++ ms) := by
  simp [append]

/-- The nodes that are there keep their numbers. -/
theorem node?_append_of_lt {t : NodeTable} {id : Nat} (h : id < t.size) (ns : List Node) :
    (t.append ns).node? id = t.node? id :=
  Array.getElem?_append_left h

/-- The nodes behind them are numbered from the old size on. -/
@[simp] theorem node?_append_size_add (t : NodeTable) (ns : List Node) (i : Nat) :
    (t.append ns).node? (t.size + i) = ns[i]? := by
  show (t.nodes ++ ns.toArray)[t.nodes.size + i]? = ns[i]?
  rw [Array.getElem?_append_right (Nat.le_add_right _ _), List.getElem?_toArray,
    Nat.add_sub_cancel_left]

/-- The first of the new nodes gets the next free number. -/
@[simp] theorem node?_append_cons_size (t : NodeTable) (n : Node) (ns : List Node) :
    (t.append (n :: ns)).node? t.size = some n :=
  node?_append_size_add t (n :: ns) 0

theorem parent?_append_of_lt {t : NodeTable} {id : Nat} (h : id < t.size) (ns : List Node) :
    (t.append ns).parent? id = t.parent? id := by
  unfold parent?
  rw [node?_append_of_lt h]

theorem children_append_of_lt {t : NodeTable} {id : Nat} (h : id < t.size) (ns : List Node) :
    (t.append ns).children id = t.children id := by
  unfold children
  rw [node?_append_of_lt h]

theorem assertion?_append_of_lt {t : NodeTable} {id : Nat} (h : id < t.size) (ns : List Node) :
    (t.append ns).assertion? id = t.assertion? id := by
  unfold assertion?
  rw [node?_append_of_lt h]

theorem node?_attach (t : NodeTable) (id child i : Nat) :
    (t.attach id child).node? i
      = if id = i then (t.node? i).map (Node.attach child) else t.node? i :=
  Array.getElem?_modify

@[simp] theorem parent?_attach (t : NodeTable) (id child i : Nat) :
    (t.attach id child).parent? i = t.parent? i := by
  unfold parent?
  rw [node?_attach]
  split
  · cases t.node? i <;> simp
  · rfl

@[simp] theorem assertion?_attach (t : NodeTable) (id child i : Nat) :
    (t.attach id child).assertion? i = t.assertion? i := by
  unfold assertion?
  rw [node?_attach]
  split
  · cases t.node? i <;> simp
  · rfl

theorem children_attach_of_ne {id i : Nat} (h : id ≠ i) (t : NodeTable) (child : Nat) :
    (t.attach id child).children i = t.children i := by
  unfold children
  rw [node?_attach, if_neg h]

theorem mem_children_attach {t : NodeTable} {id child i c : Nat}
    (h : c ∈ (t.attach id child).children i) : c ∈ t.children i ∨ (i = id ∧ c = child) := by
  by_cases hi : id = i
  · subst hi
    rw [children, node?_attach, if_pos rfl] at h
    rw [children]
    cases hn : t.node? id with
    | none => simp [hn] at h
    | some n =>
      rw [hn] at h
      rcases Node.mem_children_attach h with hc | hc
      · exact Or.inl hc
      · exact Or.inr ⟨rfl, hc⟩
  · rw [children_attach_of_ne hi] at h
    exact Or.inl h

/-- A child attached to the first of the new nodes. -/
theorem attach_append (t : NodeTable) (n : Node) (ns : List Node) (child : Nat) :
    (t.append (n :: ns)).attach t.size child = t.append (n.attach child :: ns) := by
  have hnode : ∀ i, ((t.append (n :: ns)).attach t.size child).node? i
      = (t.append (n.attach child :: ns)).node? i := by
    intro i
    rw [node?_attach]
    rcases Nat.lt_trichotomy i t.size with hi | rfl | hi
    · rw [if_neg (Nat.ne_of_gt hi), node?_append_of_lt hi, node?_append_of_lt hi]
    · rw [if_pos rfl, node?_append_cons_size, node?_append_cons_size]
      rfl
    · obtain ⟨j, rfl⟩ := Nat.exists_eq_add_of_lt hi
      rw [if_neg (Nat.ne_of_lt hi), Nat.add_assoc, node?_append_size_add, node?_append_size_add,
        List.getElem?_cons_succ, List.getElem?_cons_succ]
  exact congrArg mk (Array.ext_getElem? hnode)

/-! ### The way up -/

/-- The ancestors of a node are the node it hangs from and that node's ancestors, if it
hangs from an earlier one. -/
theorem ancestors_eq_lineage {t : NodeTable} {id : Nat}
    (h : ∀ parent, t.parent? id = some parent → parent < id) :
    t.ancestors id = t.lineage (t.parent? id) := by
  rw [ancestors]
  cases hp : t.parent? id with
  | none => rfl
  | some parent => simp [h parent hp, lineage]

theorem lt_of_mem_ancestors {t : NodeTable} {a : Nat} :
    ∀ {id : Nat}, a ∈ t.ancestors id → a < id := by
  intro id
  induction id using Nat.strongRecOn with
  | _ id ih =>
    intro ha
    rw [ancestors] at ha
    split at ha
    · simp at ha
    · split at ha
      · rename_i parent _ hlt
        rcases List.mem_cons.mp ha with rfl | ha
        · exact hlt
        · exact Nat.lt_trans (ih parent hlt ha) hlt
      · simp at ha

/-- **The way up from a node depends on the parents of earlier nodes only.** -/
theorem ancestors_congr {t t' : NodeTable} : ∀ {id : Nat},
    (∀ i ≤ id, t.parent? i = t'.parent? i) → t.ancestors id = t'.ancestors id := by
  intro id
  induction id using Nat.strongRecOn with
  | _ id ih =>
    intro h
    rw [ancestors, ancestors.eq_1 t', h id (Nat.le_refl id)]
    split
    · rfl
    · rename_i parent _
      by_cases hlt : parent < id
      · rw [dif_pos hlt, dif_pos hlt,
          ih parent hlt fun i hi => h i (Nat.le_trans hi (Nat.le_of_lt hlt))]
      · rw [dif_neg hlt, dif_neg hlt]

/-- A node lies in the subtree of another if it is that node or below it. -/
def Below (t : NodeTable) (id top : Nat) : Prop := id = top ∨ top ∈ t.ancestors id

/-- All links of a table go up to an earlier node, and a child hangs from the node it is
attached to. -/
structure Linked (t : NodeTable) : Prop where
  /-- Parents come earlier. -/
  parent_lt : ∀ {id parent : Nat}, t.parent? id = some parent → parent < id
  /-- A child hangs from the node that it is a child of. -/
  parent?_child : ∀ {id child : Nat}, child ∈ t.children id → t.parent? child = some id

namespace Linked

variable {t : NodeTable}

theorem empty : Linked ⟨#[]⟩ where
  parent_lt := by intro id parent h; simp [parent?, node?] at h
  parent?_child := by intro id child h; simp [children, node?] at h

theorem ancestors_eq (h : t.Linked) (id : Nat) : t.ancestors id = t.lineage (t.parent? id) :=
  ancestors_eq_lineage fun _ => h.parent_lt

theorem ancestors_of_parent? (h : t.Linked) {id parent : Nat} (hp : t.parent? id = some parent) :
    t.ancestors id = parent :: t.ancestors parent := by
  rw [h.ancestors_eq, hp, lineage]

/-- A node without children can be added below any node. -/
theorem push (h : t.Linked) {n : Node} (hchildren : n.children = [])
    (hparent : ∀ parent, n.parent? = some parent → parent < t.size) : (t.push n).Linked := by
  rw [push_eq_append]
  -- a node of the new table is an old one, or it is the new one
  have hcases : ∀ {id : Nat} {m : Node}, (t.append [n]).node? id = some m →
      (id < t.size ∧ t.node? id = some m) ∨ (id = t.size ∧ m = n) := by
    intro id m hm
    rcases Nat.lt_or_ge id t.size with hid | hid
    · exact Or.inl ⟨hid, by rwa [node?_append_of_lt hid] at hm⟩
    · obtain ⟨i, rfl⟩ := Nat.exists_eq_add_of_le hid
      rw [node?_append_size_add] at hm
      cases i with
      | zero => exact Or.inr ⟨rfl, (Option.some.inj hm).symm⟩
      | succ i => simp at hm
  constructor
  · intro id parent hp
    obtain ⟨m, hm, hmp⟩ := Option.bind_eq_some_iff.mp hp
    rcases hcases hm with ⟨-, hold⟩ | ⟨rfl, rfl⟩
    · exact h.parent_lt (Option.bind_eq_some_iff.mpr ⟨m, hold, hmp⟩)
    · exact hparent parent hmp
  · intro id child hc
    rw [children] at hc
    cases hm : (t.append [n]).node? id with
    | none => simp [hm] at hc
    | some m =>
      rcases hcases hm with ⟨hid, -⟩ | ⟨-, rfl⟩
      · have hold := h.parent?_child (by rwa [← children, children_append_of_lt hid] at hc)
        rwa [parent?_append_of_lt (lt_size_of_parent? hold)]
      · simp [hm, hchildren] at hc

/-- A node can be attached to the one it hangs from. -/
theorem attach (h : t.Linked) {id child : Nat} (hp : t.parent? child = some id) :
    (t.attach id child).Linked where
  parent_lt := by
    intro i parent hi
    rw [parent?_attach] at hi
    exact h.parent_lt hi
  parent?_child := by
    intro i c hc
    rw [parent?_attach]
    rcases mem_children_attach hc with hc | ⟨rfl, rfl⟩
    · exact h.parent?_child hc
    · exact hp

end Linked

/-! ### What a scan finds -/

/-- Two tables with the same parents and assertions up to a node, and the same children on
the way up from it, show the same to a scan. -/
theorem assertedAbove_congr {t t' : NodeTable} {parent : Nat}
    (hparent : ∀ i ≤ parent, t.parent? i = t'.parent? i)
    (hchildren : ∀ i ≤ parent, t.children i = t'.children i)
    (hassertion : ∀ i ≤ parent, ∀ c ∈ t'.children i, t.assertion? c = t'.assertion? c) :
    t.assertedAbove (some parent) = t'.assertedAbove (some parent) := by
  rw [assertedAbove, assertedAbove, lineage, lineage, ancestors_congr hparent]
  refine List.flatMap_congr fun i hi => ?_
  have hle : i ≤ parent := by
    rcases List.mem_cons.mp hi with rfl | hi
    · exact Nat.le_refl _
    · exact Nat.le_of_lt (lt_of_mem_ancestors hi)
  rw [hchildren i hle]
  exact List.filterMap_congr (hassertion i hle)

/-- **A scan finds what the children of a node assert**, then what a scan from the node's
parent finds. -/
theorem Linked.assertedAbove_some {t : NodeTable} (h : t.Linked) (id : Nat) :
    t.assertedAbove (some id)
      = (t.children id).filterMap t.assertion? ++ t.assertedAbove (t.parent? id) := by
  rw [assertedAbove, lineage, List.flatMap_cons, h.ancestors_eq, ← assertedAbove]

/-- **New nodes do not show on the way up from an old one.** -/
theorem Linked.assertedAbove_append {t : NodeTable} (h : t.Linked) {parent? : Option Nat}
    (hlt : ∀ parent, parent? = some parent → parent < t.size) (ns : List Node) :
    (t.append ns).assertedAbove parent? = t.assertedAbove parent? := by
  cases parent? with
  | none => rfl
  | some parent =>
    have hold : ∀ i ≤ parent, i < t.size := fun i hi => Nat.lt_of_le_of_lt hi (hlt parent rfl)
    refine assertedAbove_congr (fun i hi => parent?_append_of_lt (hold i hi) ns)
      (fun i hi => children_append_of_lt (hold i hi) ns) fun i hi c hc => ?_
    exact assertion?_append_of_lt (lt_size_of_parent? (h.parent?_child hc)) ns

end NodeTable

end Sentential
