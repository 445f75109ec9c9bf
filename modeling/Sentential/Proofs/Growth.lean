import Mathlib.Algebra.BigOperators.Ring.List
import Mathlib.Algebra.Ring.Nat
import Sentential.Proofs.Answers
import Sentential.Proofs.Leaves
import Sentential.Proofs.Normalizing
import Sentential.Proofs.Polarity

/-!
# How much the normal form grows

A biconditional copies both of its operands, once affirmed and once denied, and no other step
towards the normal form copies anything.  So an atom is there twice as often for each
biconditional that it stands in, however many negations stand between them.  The tableau of
the normal form has a leaf for each atom and a branch for each connective but the negations.

## Main definitions

* `Formula.iffDepths` — for each atom, the number of biconditionals that it stands in.
* `Formula.copies` — the number of atoms that they make of all atoms together.

## Main results

* `Formula.copies_bin` — the copies of a formula, from those of its operands.
* `Formula.count_isAtom_polarity` — both polarities have one atom for each copy.
* `Formula.count_isBinary_add_one` — a formula has one binary connective less than atoms.
* `LaidOut.length_eq`, `LaidOut.length_filter_isLeaf` — the nodes and the leaves of a block.
* `Formula.toNnf_growth` — **the sizes of the normal form and of its tableau.**
-/

namespace Sentential

namespace Formula

/-! ### Copies -/

/-- For each atom of a formula, from left to right, the number of biconditionals that it
stands in, where the formula itself stands in `outer` of them. -/
def iffDepths (outer : Nat) : Formula → List Nat
  | .lit _ => [outer]
  | .var _ => [outer]
  | .neg a => a.iffDepths outer
  | .bin op a b =>
    let inner := if op = .iff then outer + 1 else outer
    a.iffDepths inner ++ b.iffDepths inner

/-- The number of atoms that a formula has when each biconditional doubles those in it. -/
def copies (f : Formula) : Nat := ((f.iffDepths 0).map (2 ^ ·)).sum

/-- The biconditionals that a formula stands in count for each of its atoms. -/
theorem iffDepths_eq_map (f : Formula) :
    ∀ outer : Nat, f.iffDepths outer = (f.iffDepths 0).map (outer + ·) := by
  induction f with
  | lit value => exact fun _ => rfl
  | var name => exact fun _ => rfl
  | neg a ih => exact ih
  | bin op a b iha ihb =>
    intro outer
    by_cases hop : op = .iff
    · simp only [iffDepths, if_pos hop]
      rw [iha, ihb, iha (0 + 1), ihb (0 + 1), List.map_append, List.map_map, List.map_map]
      simp [Function.comp_def, Nat.add_assoc]
    · simp only [iffDepths, if_neg hop]
      rw [iha, ihb, List.map_append]

/-- Each of them doubles the number of copies. -/
theorem sum_two_pow_iffDepths (f : Formula) (outer : Nat) :
    ((f.iffDepths outer).map (2 ^ ·)).sum = 2 ^ outer * f.copies := by
  calc ((f.iffDepths outer).map (2 ^ ·)).sum
      = ((f.iffDepths 0).map fun depth => 2 ^ (outer + depth)).sum := by
        rw [iffDepths_eq_map, List.map_map]
        rfl
    _ = ((f.iffDepths 0).map fun depth => 2 ^ outer * 2 ^ depth).sum := by
        simp only [Nat.pow_add]
    _ = 2 ^ outer * f.copies := List.sum_map_mul_left (f.iffDepths 0) (2 ^ ·) (2 ^ outer)

/-- **The copies of a formula** are those of its operands, and as many again if it is a
biconditional. -/
theorem copies_bin (op : BinaryOp) (a b : Formula) :
    (bin op a b).copies = (if op = .iff then 2 else 1) * (a.copies + b.copies) := by
  by_cases hop : op = .iff
  · rw [copies, iffDepths, if_pos hop, if_pos hop, List.map_append, List.sum_append,
      sum_two_pow_iffDepths, sum_two_pow_iffDepths, Nat.zero_add, Nat.pow_one, Nat.mul_add]
  · rw [copies, iffDepths, if_neg hop, if_neg hop, List.map_append, List.sum_append, Nat.one_mul]
    rfl

/-! ### Counting nodes -/

@[simp] theorem count_isAtom_neg (a : Formula) : (neg a).count isAtom = a.count isAtom :=
  Nat.zero_add _

@[simp] theorem count_isAtom_bin (op : BinaryOp) (a b : Formula) :
    (bin op a b).count isAtom = a.count isAtom + b.count isAtom :=
  Nat.zero_add _

@[simp] theorem count_isBinary_neg (a : Formula) : (neg a).count isBinary = a.count isBinary :=
  Nat.zero_add _

@[simp] theorem count_isBinary_bin (op : BinaryOp) (a b : Formula) :
    (bin op a b).count isBinary = 1 + (a.count isBinary + b.count isBinary) :=
  rfl

/-- **A formula brought to normal form, affirmed or denied, has one atom for each copy.** -/
theorem count_isAtom_polarity (f : Formula) :
    f.positive.count isAtom = f.copies ∧ f.negative.count isAtom = f.copies := by
  induction f with
  | lit value => exact ⟨rfl, rfl⟩
  | var name => exact ⟨rfl, rfl⟩
  | neg a ih => exact ⟨ih.2, ih.1⟩
  | bin op a b iha ihb =>
    obtain ⟨hposa, hnega⟩ := iha
    obtain ⟨hposb, hnegb⟩ := ihb
    rw [copies_bin]
    cases op <;> simp [positive, negative, hposa, hnega, hposb, hnegb]
    omega

/-- **A formula has one binary connective less than atoms.** -/
theorem count_isBinary_add_one (f : Formula) : f.count isBinary + 1 = f.count isAtom := by
  induction f with
  | lit value => rfl
  | var name => rfl
  | neg a ih => rw [count_isBinary_neg, count_isAtom_neg, ih]
  | bin op a b iha ihb =>
    rw [count_isBinary_bin, count_isAtom_bin]
    omega

end Formula

/-! ### Counting leaves -/

namespace LaidOut

variable {seen : List Assertion} {parent? : Option Nat} {next : Nat} {f : Formula}
  {ns : List Node}

/-- The block of a formula has a leaf for each atom. -/
theorem length_filter_isLeaf (h : LaidOut seen parent? next f ns) :
    (ns.filter Node.isLeaf).length = f.count Formula.isAtom := by
  induction h with
  | @leaf _ _ _ f claim h =>
    obtain rfl := Assertion.formula_of_assertion? h
    rcases claim with ⟨_ | _, _ | _⟩ <;> rfl
  | branch _ _ _ iha ihb =>
    rw [List.filter_cons_of_neg Bool.false_ne_true, List.filter_append, List.length_append, iha,
      ihb, Formula.count_isAtom_bin]

/-- **The block of a formula has a node for each atom and for each binary connective.** -/
theorem length_eq (h : LaidOut seen parent? next f ns) :
    ns.length = f.count Formula.isAtom + f.count Formula.isBinary := by
  induction h with
  | @leaf _ _ _ f claim h =>
    obtain rfl := Assertion.formula_of_assertion? h
    rcases claim with ⟨_ | _, _ | _⟩ <;> rfl
  | @branch _ _ _ op _ a b left right _ _ _ iha ihb =>
    rw [List.length_cons, List.length_append, iha, ihb, Formula.count_isAtom_bin,
      Formula.count_isBinary_bin]
    omega

end LaidOut

/-! ### The law -/

/-- **The sizes of the normal form and of its tableau.**  The normal form of a formula has one
atom for each copy of an atom, where every biconditional doubles those in it, and one binary
connective less.  It has a tableau, with one leaf for each copy and one branch less. -/
theorem Formula.toNnf_growth (f : Formula) :
    f.toNnf.count isAtom = f.copies ∧ f.toNnf.count isBinary + 1 = f.copies ∧
    ∃ t, f.toNnf.tableau = .ok t ∧ t.leaves.length = f.copies ∧ t.size + 1 = 2 * f.copies := by
  have hatoms : f.toNnf.count isAtom = f.copies := by
    rw [toNnf_eq_positive, (count_isAtom_polarity f).1]
  have hbinary : f.toNnf.count isBinary + 1 = f.copies := by
    rw [count_isBinary_add_one, hatoms]
  obtain ⟨t, ht⟩ := exists_tableau_eq_ok (isNnf_toNnf f)
  obtain ⟨-, ns, hlaid, hnodes, hholds⟩ := exists_laidOut_of_tableau ht
  have hleaves : t.leaves.length = (ns.filter Node.isLeaf).length := by
    simpa using congrArg List.length (hlaid.map_node?_leaves hholds (root_of_tableau ht))
  have hsize : t.size = ns.length := NodeTable.size_of_nodes_eq hnodes
  refine ⟨hatoms, hbinary, t, ht, ?_, ?_⟩
  · rw [hleaves, hlaid.length_filter_isLeaf, hatoms]
  · rw [hsize, hlaid.length_eq]
    omega

/-- A chain of four biconditionals has nine nodes, and its normal form has forty-six atoms. -/
example : (Formula.iff (.var "a") (.iff (.var "b") (.iff (.var "c") (.iff (.var "d")
    (.var "e"))))).copies = 46 := by decide

end Sentential
