import Sentential.Formula.Outline
import Sentential.Valuation.Evaluation

/-!
# Places in a tree

Equal subformulas can stand at several places of a formula, so a node of a tree is told by the
way down to it and not by what stands there: a place is the list of the numbers of the children
through which it is reached from the root.  The same place can be looked up in a formula and in
its evaluation tree.

In preorder the places come in the order of a dictionary, in which what begins with another
word stands behind it.

## Main definitions

* `itemAt?` — what stands at a place of a tree, for formulas `Formula.at?` and for evaluation
  trees `EvalTree.at?`.
* `Formula.places` — the places of a formula, in preorder.

## Main results

* `Formula.map_at?_places` — at these places stand the subformulas.
* `Formula.mem_places` — they are all places at which something stands.
* `Formula.pairwise_lt_places` — they come in the order of a dictionary.
-/

namespace Sentential

/-- What stands at a place of a tree: at the place `[]` its root, and at the place `i :: place`
what stands at `place` below the child with the number `i`. -/
def itemAt? {α : Type} (children : α → List α) : List Nat → α → Option α
  | [], t => some t
  | i :: place, t => (children t)[i]?.bind (itemAt? children place)

/-- At a place with one step more stands the child with the last number. -/
theorem itemAt?_append_singleton {α : Type} (children : α → List α) (place : List Nat) (i : Nat) :
    ∀ t : α, itemAt? children (place ++ [i]) t
      = (itemAt? children place t).bind fun u => (children u)[i]? := by
  induction place with
  | nil =>
    intro t
    change (children t)[i]?.bind (itemAt? children []) = (children t)[i]?
    cases (children t)[i]? <;> rfl
  | cons j place ih =>
    intro t
    rw [List.cons_append, itemAt?, itemAt?, Option.bind_assoc, funext ih]

/-- The subformula at a place of a formula. -/
def Formula.at? (f : Formula) (place : List Nat) : Option Formula :=
  itemAt? Formula.children place f

/-- The tree at a place of an evaluation tree. -/
def EvalTree.at? (t : EvalTree) (place : List Nat) : Option EvalTree :=
  itemAt? EvalTree.children place t

@[simp] theorem EvalTree.at?_nil (t : EvalTree) : t.at? [] = some t := rfl

theorem EvalTree.at?_cons (t : EvalTree) (i : Nat) (place : List Nat) :
    t.at? (i :: place) = t.children[i]?.bind (·.at? place) := rfl

namespace Formula

@[simp] theorem at?_nil (f : Formula) : f.at? [] = some f := rfl

theorem at?_cons (f : Formula) (i : Nat) (place : List Nat) :
    f.at? (i :: place) = f.children[i]?.bind (·.at? place) := rfl

@[simp] theorem at?_neg_zero (a : Formula) (place : List Nat) :
    (neg a).at? (0 :: place) = a.at? place := rfl

@[simp] theorem at?_bin_zero (op : BinaryOp) (a b : Formula) (place : List Nat) :
    (bin op a b).at? (0 :: place) = a.at? place := rfl

@[simp] theorem at?_bin_one (op : BinaryOp) (a b : Formula) (place : List Nat) :
    (bin op a b).at? (1 :: place) = b.at? place := rfl

/-- The places of a formula, in preorder. -/
def places : Formula → List (List Nat)
  | .lit _ => [[]]
  | .var _ => [[]]
  | .neg a => [] :: a.places.map (0 :: ·)
  | .bin _ a b => [] :: (a.places.map (0 :: ·) ++ b.places.map (1 :: ·))

theorem getElem?_places_zero (f : Formula) : f.places[0]? = some [] := by cases f <;> rfl

/-- **At the places of a formula stand its subformulas**, in the same order. -/
theorem map_at?_places (f : Formula) : f.places.map f.at? = f.subformulas.map some := by
  induction f with
  | lit value => rfl
  | var name => rfl
  | neg a ih =>
    rw [places, subformulas, List.map_cons, List.map_cons, List.map_map, ← ih]
    rfl
  | bin op a b iha ihb =>
    rw [places, subformulas, List.map_cons, List.map_cons, List.map_append, List.map_append,
      List.map_map, List.map_map, ← iha, ← ihb]
    rfl

theorem length_subformulas (f : Formula) : f.subformulas.length = f.size := by
  rw [size, count_eq_countP, List.countP_true]

theorem length_outlineFrom (f : Formula) (level : Nat) (parent? : Option Nat) (next : Nat) :
    (f.outlineFrom level parent? next).length = f.size := by
  rw [← length_subformulas, ← f.map_item_outlineFrom level parent? next, List.length_map]

theorem length_places (f : Formula) : f.places.length = f.size := by
  have hlength := congrArg List.length f.map_at?_places
  rwa [List.length_map, List.length_map, length_subformulas] at hlength

/-- **These are all places at which something stands.** -/
theorem mem_places {f : Formula} {place : List Nat} :
    place ∈ f.places ↔ (f.at? place).isSome = true := by
  induction f generalizing place with
  | lit value => cases place <;> simp [places, at?_cons, children]
  | var name => cases place <;> simp [places, at?_cons, children]
  | neg a ih =>
    cases place with
    | nil => simp [places]
    | cons i place => cases i <;> simp [places, ih, at?_cons, children]
  | bin op a b iha ihb =>
    cases place with
    | nil => simp [places]
    | cons i place => rcases i with _ | _ | i <;> simp [places, iha, ihb, at?_cons, children]

/-- **The places come in the order of a dictionary.** -/
theorem pairwise_lt_places (f : Formula) : f.places.Pairwise (· < ·) := by
  -- below the same child the order is the one of the rest
  have hchild : ∀ (i : Nat) {l : List (List Nat)}, l.Pairwise (· < ·) →
      (l.map (i :: ·)).Pairwise (· < ·) := by
    intro i l h
    rw [List.pairwise_map]
    exact h.imp fun hlt => List.cons_lt_cons_iff.mpr (.inr ⟨rfl, hlt⟩)
  have hroot : ∀ (i : Nat) (l : List (List Nat)), ∀ place ∈ l.map (i :: ·), [] < place := by
    intro i l place hplace
    obtain ⟨rest, -, rfl⟩ := List.mem_map.mp hplace
    exact List.nil_lt_cons i rest
  induction f with
  | lit value => exact List.pairwise_singleton _ _
  | var name => exact List.pairwise_singleton _ _
  | neg a ih => exact List.pairwise_cons.mpr ⟨hroot 0 _, hchild 0 ih⟩
  | bin op a b iha ihb =>
    refine List.pairwise_cons.mpr ⟨?_, List.pairwise_append.mpr ⟨hchild 0 iha, hchild 1 ihb, ?_⟩⟩
    · intro place hplace
      rcases List.mem_append.mp hplace with h | h
      · exact hroot 0 _ place h
      · exact hroot 1 _ place h
    · intro p hp q hq
      obtain ⟨p, -, rfl⟩ := List.mem_map.mp hp
      obtain ⟨q, -, rfl⟩ := List.mem_map.mp hq
      exact List.cons_lt_cons_iff.mpr (.inl Nat.zero_lt_one)

theorem nodup_places (f : Formula) : f.places.Nodup := by
  refine f.pairwise_lt_places.imp ?_
  rintro place _ hlt rfl
  exact List.lt_irrefl place hlt

end Formula

end Sentential
