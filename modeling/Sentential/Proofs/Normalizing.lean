import Sentential.Formula.NormalForm

/-!
# Reaching the normal form

The normal form goes on with formulas that need not be parts of the one it started from:
they are copied and negated on the way, and can be larger than it.  They always weigh
less, however, so the calls never nest deeper than the weight of the formula, which is at
most four times its number of nodes.  What comes out is in normal form, and a formula
that is in normal form already comes out as it is.

## Main definitions

* `Formula.toNnfWithin` — the normal form, if its calls nest no deeper than a bound.

## Main results

* `Formula.wellFounded_pending` — the recursion of the normal form is well founded.
* `Formula.toNnfWithin_eq_some` — how deep the calls of the normal form nest.
* `Formula.isNnf_toNnf`, `Formula.toNnf_eq_self_iff` — the results and the fixed points are
  the formulas in normal form.
* `Formula.toNnf_terminates_in_normal_form` — **all of it.**
-/

namespace Sentential.Formula

/-! ### How far the recursion goes -/

/-- **The recursion of the normal form is well founded**: what it goes on with after a step
weighs less than what it started from. -/
theorem wellFounded_pending : WellFounded fun g f : Formula => g ∈ f.simplify.pending :=
  Subrelation.wf weight_lt_of_mem_pending_simplify (measure weight).wf

/-- The normal form, worked out by calls that nest no deeper than `levels`.  There is none if
that is not enough. -/
def toNnfWithin : Nat → Formula → Option Formula
  | 0, _ => none
  | levels + 1, f =>
    match f.simplify with
    | .lit value => some (.lit value)
    | .var name => some (.var name)
    | .neg a => if a.isAtom then some (.neg a) else toNnfWithin levels (.neg a)
    | .bin .and a b => do
      let a' ← toNnfWithin levels a
      let b' ← toNnfWithin levels b
      return conj a' b'
    | .bin .or a b => do
      let a' ← toNnfWithin levels a
      let b' ← toNnfWithin levels b
      return disj a' b'
    | .bin .cond a b => toNnfWithin levels (cond a b)
    | .bin .iff a b => toNnfWithin levels (iff a b)

/-- **The calls nest no deeper than the weight of the formula.** -/
theorem toNnfWithin_eq_some {levels : Nat} : ∀ {f : Formula}, f.weight ≤ levels →
    f.toNnfWithin levels = some f.toNnf := by
  induction levels with
  | zero =>
    intro f h
    exact absurd f.weight_pos (Nat.not_lt.mpr h)
  | succ levels ih =>
    intro f h
    -- a call is for a lighter formula, for which one level less is enough
    have hcall : ∀ g ∈ f.simplify.pending, g.toNnfWithin levels = some g.toNnf := fun g hg =>
      ih (Nat.le_of_lt_succ (Nat.lt_of_lt_of_le (weight_lt_of_mem_pending_simplify hg) h))
    rw [toNnfWithin, ← toNnf_simplify]
    cases hf : f.simplify with
    | lit value => rw [toNnf_lit]
    | var name => rw [toNnf_var]
    | neg a =>
      rw [hf] at hcall
      by_cases ha : a.isAtom = true
      · rw [toNnf_neg_of_isAtom ha]
        exact if_pos ha
      · have hnext : (neg a).toNnfWithin levels = some (neg a).toNnf :=
          hcall _ (by simp [pending, ha])
        rw [← hnext]
        exact if_neg ha
    | bin op a b =>
      rw [hf] at hcall
      cases op with
      | and =>
        have ha : a.toNnfWithin levels = some a.toNnf := hcall a (by simp [pending])
        have hb : b.toNnfWithin levels = some b.toNnf := hcall b (by simp [pending])
        simp [ha, hb, toNnf_and]
      | or =>
        have ha : a.toNnfWithin levels = some a.toNnf := hcall a (by simp [pending])
        have hb : b.toNnfWithin levels = some b.toNnf := hcall b (by simp [pending])
        simp [ha, hb, toNnf_or]
      | cond => exact hcall _ (by simp [pending])
      | iff => exact hcall _ (by simp [pending])

/-- A node weighs four at most. -/
theorem weight_le_four_mul_size (f : Formula) : f.weight ≤ 4 * f.size := by
  induction f with
  | lit value => simp [weight]
  | var name => simp [weight]
  | neg a ih =>
    rw [weight, size_neg]
    omega
  | bin op a b iha ihb =>
    rw [size_bin]
    cases op <;> simp only [weight] <;> omega

/-! ### What comes out -/

/-- **The normal form is in normal form.** -/
theorem isNnf_toNnf (f : Formula) : f.toNnf.isNnf = true := by
  refine toNnf_induction (motive := fun _ g => g.isNnf = true) (fun h => h) ?_ (fun h => h) ?_ f
  · intro a ha
    rcases isAtom_iff.mp ha with ⟨value, rfl⟩ | ⟨name, rfl⟩ <;> rfl
  · rintro op a b a' b' (rfl | rfl) ha hb
    · rw [isNnf, ha, hb, Bool.and_self]
    · rw [isNnf, ha, hb, Bool.and_self]

/-- A formula in normal form stays as it is. -/
theorem toNnf_eq_self {f : Formula} (h : f.isNnf = true) : f.toNnf = f := by
  induction f with
  | lit value => exact toNnf_lit value
  | var name => exact toNnf_var name
  | neg a _ => exact toNnf_neg_of_isAtom h
  | bin op a b iha ihb =>
    cases op with
    | cond => simp [isNnf] at h
    | iff => simp [isNnf] at h
    | and =>
      rw [isNnf, Bool.and_eq_true] at h
      rw [toNnf_and, iha h.1, ihb h.2]
    | or =>
      rw [isNnf, Bool.and_eq_true] at h
      rw [toNnf_or, iha h.1, ihb h.2]

/-- **The formulas in normal form are those that stay as they are.** -/
theorem toNnf_eq_self_iff {f : Formula} : f.toNnf = f ↔ f.isNnf = true :=
  ⟨fun h => h ▸ isNnf_toNnf f, toNnf_eq_self⟩

/-- **The normal form of every formula is reached, and is one.**  The recursion is well
founded, and its calls nest no deeper than four times the number of nodes of the formula.
The result is in normal form.  The formulas in normal form are those that stay as they
are, so doing it twice is doing it once. -/
theorem toNnf_terminates_in_normal_form :
    (WellFounded fun g f : Formula => g ∈ f.simplify.pending) ∧
    ∀ f : Formula, f.toNnfWithin (4 * f.size) = some f.toNnf ∧ f.toNnf.isNnf = true ∧
      (f.toNnf = f ↔ f.isNnf = true) ∧ f.toNnf.toNnf = f.toNnf :=
  ⟨wellFounded_pending, fun f => ⟨toNnfWithin_eq_some f.weight_le_four_mul_size, isNnf_toNnf f,
    toNnf_eq_self_iff, toNnf_eq_self (isNnf_toNnf f)⟩⟩

end Sentential.Formula
