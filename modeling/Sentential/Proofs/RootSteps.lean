import Mathlib.Logic.Function.Iterate
import Sentential.Formula.NormalForm
import Sentential.Proofs.Grammar
import Sentential.Proofs.Misplaced

/-!
# Simplifying again and again

A step leaves a formula alone if its root is an atom, the negation of an atom, `∧` or `⋁`, and
changes every other one.  It may put a larger formula with more negations in its place, but then
the root is `∧` or `⋁`.  Only a double negation gives way to a formula of any kind, and that one
is two levels less deep.  So the steps come to rest, and half as many as the formula has levels
are enough.

## Main definitions

* `Formula.HasSettledRoot` — the root is one that a step leaves alone.

## Main results

* `Formula.simplify_eq_self_iff` — the formulas that a step leaves alone.
* `Formula.hasSettledRoot_simplify_or` — what one step does.
* `Formula.hasSettledRoot_iterate_simplify` — how many steps are enough.
* `Formula.simplify_comes_to_rest` — **all of it.**
-/

namespace Sentential.Formula

/-! ### Roots -/

/-- The root of a formula is a truth value, a variable, the negation of an atom, `∧` or `⋁`. -/
inductive HasSettledRoot : Formula → Prop where
  /-- A truth value. -/
  | lit (value : Bool) : HasSettledRoot (.lit value)
  /-- A variable. -/
  | var (name : String) : HasSettledRoot (.var name)
  /-- The negation of a truth value or of a variable. -/
  | neg {a : Formula} (h : a.isAtom = true) : HasSettledRoot (.neg a)
  /-- A conjunction. -/
  | conj (a b : Formula) : HasSettledRoot (conj a b)
  /-- A disjunction. -/
  | disj (a b : Formula) : HasSettledRoot (disj a b)

/-- The roots that a step leaves alone are those that have a place in a normal form. -/
theorem hasSettledRoot_iff_isMisplaced {f : Formula} :
    f.HasSettledRoot ↔ f.isMisplaced = false := by
  constructor
  · rintro (_ | _ | h | _ | _)
    case neg => rw [isMisplaced, h, Bool.not_true]
    all_goals rfl
  · intro h
    cases f with
    | lit value => exact .lit value
    | var name => exact .var name
    | neg a => exact .neg (by simpa [isMisplaced] using h)
    | bin op a b =>
      cases op with
      | and => exact .conj a b
      | or => exact .disj a b
      | cond => cases h
      | iff => cases h

instance : DecidablePred HasSettledRoot := fun _ =>
  decidable_of_iff' _ hasSettledRoot_iff_isMisplaced

/-! ### One step -/

/-- A step leaves a settled root alone. -/
theorem HasSettledRoot.simplify_eq {f : Formula} (h : f.HasSettledRoot) : f.simplify = f := by
  cases h with
  | lit value => rfl
  | var name => rfl
  | neg ha => rcases isAtom_iff.mp ha with ⟨value, rfl⟩ | ⟨name, rfl⟩ <;> rfl
  | conj a b => rfl
  | disj a b => rfl

/-- **What one step does.**  It settles the root, unless it takes off a double negation. -/
theorem hasSettledRoot_simplify_or (f : Formula) :
    f.simplify.HasSettledRoot ∨ ∃ a, f = neg (neg a) := by
  rcases f with value | name | (value | name | a | ⟨op, a, b⟩) | ⟨op, a, b⟩
  case neg.neg => exact .inr ⟨a, rfl⟩
  case lit => exact .inl (.lit value)
  case var => exact .inl (.var name)
  case neg.lit => exact .inl (.neg rfl)
  case neg.var => exact .inl (.neg rfl)
  case neg.bin => cases op <;> exact .inl (by constructor)
  case bin => cases op <;> exact .inl (by constructor)

/-- **The formulas that a step leaves alone** are those with a settled root. -/
theorem simplify_eq_self_iff {f : Formula} : f.simplify = f ↔ f.HasSettledRoot := by
  refine ⟨fun h => ?_, HasSettledRoot.simplify_eq⟩
  rcases hasSettledRoot_simplify_or f with hroot | ⟨a, rfl⟩
  · rwa [h] at hroot
  · -- a double negation is deeper than what it gives way to
    have hdepth := congrArg depth h
    simp only [simplify_neg_neg, depth] at hdepth
    omega

/-! ### Several steps -/

/-- **Half as many steps as a formula has levels settle its root.** -/
theorem hasSettledRoot_iterate_simplify {n : Nat} : ∀ {f : Formula}, f.depth ≤ 2 * n + 1 →
    (simplify^[n] f).HasSettledRoot := by
  induction n with
  | zero =>
    intro f h
    cases f with
    | lit value => exact .lit value
    | var name => exact .var name
    | neg a =>
      have ha := a.depth_pos
      simp only [depth] at h
      omega
    | bin op a b =>
      have ha := a.depth_pos
      simp only [depth] at h
      omega
  | succ n ih =>
    intro f h
    rw [Function.iterate_succ_apply]
    rcases hasSettledRoot_simplify_or f with hroot | ⟨a, rfl⟩
    · rwa [Function.iterate_fixed hroot.simplify_eq]
    · refine ih ?_
      simp only [depth] at h
      rw [simplify_neg_neg]
      omega

/-- The double negation of a conditional has four levels, and one step is not enough. -/
example : ¬(neg (neg (cond (.var "p") (.var "q")))).simplify.HasSettledRoot := by decide

theorem simplifications_add (m n : Nat) : ∀ f : Formula,
    f.simplifications (m + n) = f.simplifications m ++ (simplify^[m] f).simplifications n := by
  induction m with
  | zero => intro f; rw [Nat.zero_add]; rfl
  | succ m ih =>
    intro f
    rw [Nat.succ_add, simplifications, ih, simplifications, Function.iterate_succ_apply]
    rfl

/-- A settled root stays as it is at every further step. -/
theorem HasSettledRoot.simplifications_eq {f : Formula} (h : f.HasSettledRoot) (n : Nat) :
    f.simplifications n = List.replicate n f := by
  induction n with
  | zero => rfl
  | succ n ih => rw [simplifications, h.simplify_eq, ih, List.replicate_succ]

/-- **The steps come to rest.**  A step leaves alone exactly the formulas the root of which is an
atom, the negation of an atom, `∧` or `⋁`.  Every formula has become such a one after as many steps
as it has levels, and all further steps leave it as it is. -/
theorem simplify_comes_to_rest (f : Formula) :
    (f.simplify = f ↔ f.HasSettledRoot) ∧
    (simplify^[f.depth] f).HasSettledRoot ∧
    (∀ n, simplify^[f.depth + n] f = simplify^[f.depth] f) ∧
    ∀ n, f.simplifications (f.depth + n)
      = f.simplifications f.depth ++ List.replicate n (simplify^[f.depth] f) := by
  have hroot : (simplify^[f.depth] f).HasSettledRoot :=
    hasSettledRoot_iterate_simplify (by omega)
  refine ⟨simplify_eq_self_iff, hroot, fun n => ?_, fun n => ?_⟩
  · rw [Nat.add_comm, Function.iterate_add_apply, Function.iterate_fixed hroot.simplify_eq]
  · rw [simplifications_add, hroot.simplifications_eq]

end Sentential.Formula
