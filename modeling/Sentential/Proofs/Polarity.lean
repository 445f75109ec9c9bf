import Mathlib.Logic.Relation
import Sentential.Formula.NormalForm

/-!
# The normal form by polarity

The normal form is defined by steps at the root.  It can also be computed without any,
by one recursion into the formula that keeps track of whether the formula is affirmed or
denied.  A step anywhere in a formula changes neither of the two results, so it makes no
difference which steps are taken, where, and in which order: the normal form of the
formula stays within reach.

## Main definitions

* `Formula.positive`, `Formula.negative` — a formula brought to normal form, affirmed and
  denied.
* `Formula.StepsTo` — one step at any place of a formula.

## Main results

* `Formula.toNnf_eq_positive`, `Formula.toNnf_neg_eq_negative` — the two ways to the
  normal form agree.
* `Formula.StepsTo.toNnf_eq` — a step at any place keeps the normal form.
* `Formula.stepsTo_toNnf` — the normal form is reached by steps.
* `Formula.toNnf_polarity` — **steps are confluent**, and the normal form is told by
  polarity.
-/

namespace Sentential.Formula

mutual

/-- A formula brought to normal form. -/
def positive : Formula → Formula
  | .lit value => .lit value
  | .var name => .var name
  | .neg a => a.negative
  | .bin .and a b => conj a.positive b.positive
  | .bin .or a b => disj a.positive b.positive
  | .bin .cond a b => disj a.negative b.positive
  | .bin .iff a b => disj (conj a.positive b.positive) (conj a.negative b.negative)

/-- The negation of a formula brought to normal form. -/
def negative : Formula → Formula
  | .lit value => .neg (.lit value)
  | .var name => .neg (.var name)
  | .neg a => a.positive
  | .bin .and a b => disj a.negative b.negative
  | .bin .or a b => conj a.negative b.negative
  | .bin .cond a b => conj a.positive b.negative
  | .bin .iff a b => conj (disj a.negative b.negative) (disj a.positive b.positive)

end

/-! ### Agreement with the normal form -/

theorem polarity_of_isAtom {a : Formula} (h : a.isAtom = true) :
    a.positive = a ∧ a.negative = neg a := by
  rcases isAtom_iff.mp h with ⟨value, rfl⟩ | ⟨name, rfl⟩ <;> exact ⟨rfl, rfl⟩

/-- **A step at the root keeps both polarities.** -/
theorem polarity_simplify (f : Formula) :
    f.simplify.positive = f.positive ∧ f.simplify.negative = f.negative := by
  rcases f with _ | _ | (_ | _ | _ | ⟨_ | _ | _ | _, _, _⟩) | ⟨_ | _ | _ | _, _, _⟩ <;>
    exact ⟨rfl, rfl⟩

/-- **The normal form of a formula is the formula affirmed.** -/
theorem toNnf_eq_positive (f : Formula) : f.toNnf = f.positive := by
  refine toNnf_induction (motive := fun f g => g = f.positive) ?_ ?_ ?_ ?_ f
  · intro f g h
    rw [h, (polarity_simplify f).1]
  · intro a ha
    exact (polarity_of_isAtom ha).1.symm
  · intro a ha
    rw [positive, (polarity_of_isAtom ha).2]
  · rintro op a b a' b' (rfl | rfl) ha hb
    · rw [positive, ha, hb]
    · rw [positive, ha, hb]

/-- **The normal form of a negation is the formula denied.** -/
theorem toNnf_neg_eq_negative (f : Formula) : (neg f).toNnf = f.negative := by
  rw [toNnf_eq_positive, positive]

/-! ### Steps at any place -/

/-- `f.StepsTo g` says that `g` is `f` with one of its subformulas, wherever it stands,
replaced by what a step at its root makes of it. -/
inductive StepsTo : Formula → Formula → Prop where
  /-- The formula itself is the subformula. -/
  | root (f : Formula) : StepsTo f f.simplify
  /-- The subformula stands in the operand of a negation. -/
  | neg {a a' : Formula} (h : StepsTo a a') : StepsTo (neg a) (neg a')
  /-- It stands in the left operand of a binary connective. -/
  | left {op : BinaryOp} {a a' : Formula} (h : StepsTo a a') (b : Formula) :
      StepsTo (bin op a b) (bin op a' b)
  /-- It stands in the right operand. -/
  | right {op : BinaryOp} (a : Formula) {b b' : Formula} (h : StepsTo b b') :
      StepsTo (bin op a b) (bin op a b')

/-- **A step anywhere keeps both polarities**, as those of a formula are put together from
those of its parts. -/
theorem StepsTo.polarity_eq {f g : Formula} (h : f.StepsTo g) :
    g.positive = f.positive ∧ g.negative = f.negative := by
  induction h with
  | root f => exact polarity_simplify f
  | neg _ ih => exact ⟨ih.2, ih.1⟩
  | @left op _ _ _ _ ih =>
    obtain ⟨hpos, hneg⟩ := ih
    cases op <;> simp only [positive, negative, hpos, hneg, and_self]
  | @right op _ _ _ _ ih =>
    obtain ⟨hpos, hneg⟩ := ih
    cases op <;> simp only [positive, negative, hpos, hneg, and_self]

/-- A step anywhere keeps the normal form. -/
theorem StepsTo.toNnf_eq {f g : Formula} (h : f.StepsTo g) : g.toNnf = f.toNnf := by
  rw [toNnf_eq_positive, toNnf_eq_positive, h.polarity_eq.1]

/-- Steps in the operands of a binary connective are steps of the whole. -/
theorem stepsTo_bin {op : BinaryOp} {a a' b b' : Formula}
    (ha : Relation.ReflTransGen StepsTo a a') (hb : Relation.ReflTransGen StepsTo b b') :
    Relation.ReflTransGen StepsTo (bin op a b) (bin op a' b') :=
  (ha.lift (bin op · b) fun _ _ h => .left h b).trans (hb.lift (bin op a') fun _ _ h => .right a' h)

/-- **The normal form is reached by steps.** -/
theorem stepsTo_toNnf (f : Formula) : Relation.ReflTransGen StepsTo f f.toNnf :=
  toNnf_induction (motive := Relation.ReflTransGen StepsTo) (fun h => .head (.root _) h)
    (fun _ => .refl) (fun _ => .refl) (fun _ ha hb => stepsTo_bin ha hb) f

/-- However many steps have been taken, the normal form of the start is still reached. -/
theorem stepsTo_toNnf_of_stepsTo {f g : Formula} (h : Relation.ReflTransGen StepsTo f g) :
    Relation.ReflTransGen StepsTo g f.toNnf := by
  have hkeep : g.toNnf = f.toNnf := by
    induction h with
    | refl => rfl
    | tail _ hstep ih => rw [hstep.toNnf_eq, ih]
  exact hkeep ▸ stepsTo_toNnf g

/-- **The normal form by polarity.**  The normal form of a formula is the formula affirmed,
and that of its negation the formula denied.  A step at any place of the formula leaves the
normal form as it is, and formulas that are reached by different steps can be brought
together again. -/
theorem toNnf_polarity (f : Formula) :
    f.toNnf = f.positive ∧ (neg f).toNnf = f.negative ∧
    (∀ g, f.StepsTo g → g.toNnf = f.toNnf) ∧
    ∀ g h, Relation.ReflTransGen StepsTo f g → Relation.ReflTransGen StepsTo f h →
      Relation.Join (Relation.ReflTransGen StepsTo) g h := by
  refine ⟨toNnf_eq_positive f, toNnf_neg_eq_negative f, fun g h => h.toNnf_eq,
    fun g h hg hh => ?_⟩
  -- the two come together in the normal form of the start
  have hgNormal : Relation.ReflTransGen StepsTo g f.toNnf := stepsTo_toNnf_of_stepsTo hg
  have hhNormal : Relation.ReflTransGen StepsTo h f.toNnf := stepsTo_toNnf_of_stepsTo hh
  exact ⟨f.toNnf, hgNormal, hhNormal⟩

/-- In `¬(p→¬¬q)` the step inside that cancels the double negation keeps the normal form
`p∧¬q`, and its result can be brought together with that of the step at the root. -/
theorem toNnf_polarity_inner_step :
    (neg (cond (var "p") (neg (neg (var "q"))))).StepsTo (neg (cond (var "p") (var "q"))) ∧
      (neg (cond (var "p") (var "q"))).toNnf = conj (var "p") (neg (var "q")) ∧
      Relation.Join (Relation.ReflTransGen StepsTo) (neg (cond (var "p") (var "q")))
        (conj (neg (neg (var "p"))) (neg (neg (neg (var "q"))))) := by
  have hinner : (neg (cond (var "p") (neg (neg (var "q"))))).StepsTo
      (neg (cond (var "p") (var "q"))) := .neg (.right (var "p") (.root (neg (neg (var "q")))))
  have hroot : (neg (cond (var "p") (neg (neg (var "q"))))).StepsTo
      (conj (neg (neg (var "p"))) (neg (neg (neg (var "q"))))) := .root _
  obtain ⟨hpos, -, hkeep, hjoin⟩ := toNnf_polarity (neg (cond (var "p") (neg (neg (var "q")))))
  exact ⟨hinner, (hkeep _ hinner).trans hpos, hjoin _ _ (.single hinner) (.single hroot)⟩

end Sentential.Formula
