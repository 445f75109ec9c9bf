import Sentential.Formula.Basic

/-!
# Negation normal form

The conditional and the biconditional are defined away, double negations cancel,
and negations move inwards past `∧` and `⋁`.  One such step acts at the root of a
formula only; the normal form takes steps until the root is an atom, a negated
atom, `∧` or `⋁`, and then goes on inside.

## Main definitions

* `Formula.expand` — defines away a `→` or `↔` at the root.
* `Formula.simplify` — one step at the root.
* `Formula.simplifications` — the formulas reached by repeated steps.
* `Formula.weight` — the measure under which the normal form terminates.
* `Formula.toNnf` — the negation normal form.

## Main results

* `Formula.weight_lt_of_mem_pending_simplify` — what the normal form goes on with
  after a step weighs less than the formula it came from.
* `Formula.toNnf_simplify` — a step at the root does not change the normal form.
* `Formula.toNnf_induction` — induction along the normal form.
-/

namespace Sentential.Formula

/-! ### One step -/

/-- Defines away a conditional or biconditional at the root.  The operands stay
as they are, and those of a biconditional are copied. -/
def expand : Formula → Formula
  | .bin .cond a b => disj (neg a) b
  | .bin .iff a b => disj (conj a b) (conj (neg a) (neg b))
  | f => f

/-- Negates a formula, by the laws of De Morgan if its root is `∧` or `⋁`. -/
def deny : Formula → Formula
  | .bin .and a b => disj (neg a) (neg b)
  | .bin .or a b => conj (neg a) (neg b)
  | f => neg f

/-- One step towards the normal form, at the root.  A double negation cancels; another negation
moves inwards past the `∧` or `⋁` that its operand is or expands to; and any
other formula is expanded. -/
def simplify : Formula → Formula
  | .neg (.neg a) => a
  | .neg a => a.expand.deny
  | f => f.expand

/-- The formulas reached from `f` by one step, two steps and so on up to `n`. -/
def simplifications : Nat → Formula → List Formula
  | 0, _ => []
  | n + 1, f => f.simplify :: simplifications n f.simplify

@[simp] theorem simplify_lit (value : Bool) : (lit value).simplify = lit value := rfl

@[simp] theorem simplify_var (name : String) : (var name).simplify = var name := rfl

@[simp] theorem simplify_and (a b : Formula) : (conj a b).simplify = conj a b := rfl

@[simp] theorem simplify_or (a b : Formula) : (disj a b).simplify = disj a b := rfl

@[simp] theorem simplify_cond (a b : Formula) :
    (cond a b).simplify = disj (neg a) b := rfl

@[simp] theorem simplify_iff (a b : Formula) :
    (iff a b).simplify = disj (conj a b) (conj (neg a) (neg b)) := rfl

@[simp] theorem simplify_neg_lit (value : Bool) :
    (neg (lit value)).simplify = neg (lit value) := rfl

@[simp] theorem simplify_neg_var (name : String) :
    (neg (var name)).simplify = neg (var name) := rfl

@[simp] theorem simplify_neg_neg (a : Formula) : (neg (neg a)).simplify = a := rfl

@[simp] theorem simplify_neg_and (a b : Formula) :
    (neg (conj a b)).simplify = disj (neg a) (neg b) := rfl

@[simp] theorem simplify_neg_or (a b : Formula) :
    (neg (disj a b)).simplify = conj (neg a) (neg b) := rfl

@[simp] theorem simplify_neg_cond (a b : Formula) :
    (neg (cond a b)).simplify = conj (neg (neg a)) (neg b) := rfl

@[simp] theorem simplify_neg_iff (a b : Formula) :
    (neg (iff a b)).simplify = conj (neg (conj a b)) (neg (conj (neg a) (neg b))) := rfl

/-! ### The normal form -/

/-- A measure of what is left to do.  A biconditional weighs more than the
three connectives and two negations it expands to, which is what pays for its
copied operands: they are weighed apart from then on. -/
def weight : Formula → Nat
  | .lit _ => 1
  | .var _ => 1
  | .neg a => a.weight + 1
  | .bin .iff a b => a.weight + b.weight + 4
  | .bin _ a b => a.weight + b.weight + 1

/-- Every formula weighs something. -/
theorem weight_pos (f : Formula) : 0 < f.weight := by
  rcases f with _ | _ | _ | ⟨_ | _ | _ | _, _, _⟩ <;> simp only [weight] <;> omega

/-- What the normal form goes on with after a step: the parts of a `∧` or `⋁`,
the formula itself if its root still has to be simplified, and nothing if it is an atom
or a negated atom. -/
def pending : Formula → List Formula
  | .lit _ => []
  | .var _ => []
  | .neg a => if a.isAtom then [] else [neg a]
  | .bin .and a b => [a, b]
  | .bin .or a b => [a, b]
  | .bin .cond a b => [cond a b]
  | .bin .iff a b => [iff a b]

/-- What is left to do of a formula weighs no more than the formula. -/
theorem le_weight_of_mem_pending {f g : Formula} (h : g ∈ f.pending) : g.weight ≤ f.weight := by
  rcases f with value | name | a | ⟨op, a, b⟩
  case neg =>
    by_cases ha : a.isAtom <;> simp_all [pending]
  case bin =>
    cases op <;> simp_all [pending] <;> rcases h with rfl | rfl <;> simp only [weight] <;> omega
  all_goals simp [pending] at h

/-- **A step leaves only lighter formulas to go on with.** -/
theorem weight_lt_of_mem_pending_simplify {f g : Formula} (h : g ∈ f.simplify.pending) :
    g.weight < f.weight := by
  rcases f with value | name | (value | name | a | ⟨op, a, b⟩) | ⟨op, a, b⟩
  case neg.neg =>
    have hle : g.weight ≤ a.weight := le_weight_of_mem_pending h
    simp only [weight]
    omega
  case neg.bin =>
    have ha := weight_pos a
    have hb := weight_pos b
    cases op <;> simp_all [pending] <;> rcases h with rfl | rfl <;> simp only [weight] <;> omega
  case bin =>
    have ha := weight_pos a
    have hb := weight_pos b
    cases op <;> simp_all [pending] <;> rcases h with rfl | rfl <;> simp only [weight] <;> omega
  all_goals simp [pending, isAtom] at h

/-- The negation normal form: the root is simplified until it is an atom, a
negated atom, `∧` or `⋁`, and the parts of a `∧` or `⋁` are brought to normal
form.  A chain of biconditionals doubles with each link. -/
def toNnf (f : Formula) : Formula :=
  match _h : f.simplify with
  | .lit value => .lit value
  | .var name => .var name
  | .neg a => if a.isAtom then .neg a else (neg a).toNnf
  | .bin .and a b => conj a.toNnf b.toNnf
  | .bin .or a b => disj a.toNnf b.toNnf
  | .bin .cond a b => (cond a b).toNnf
  | .bin .iff a b => (iff a b).toNnf
termination_by f.weight
decreasing_by
  all_goals
    refine weight_lt_of_mem_pending_simplify ?_
    simp_all [pending]

@[simp] theorem toNnf_lit (value : Bool) : (lit value).toNnf = lit value := by
  rw [toNnf]
  rfl

@[simp] theorem toNnf_var (name : String) : (var name).toNnf = var name := by
  rw [toNnf]
  rfl

@[simp] theorem toNnf_and (a b : Formula) : (conj a b).toNnf = conj a.toNnf b.toNnf := by
  rw [toNnf]
  rfl

@[simp] theorem toNnf_or (a b : Formula) : (disj a b).toNnf = disj a.toNnf b.toNnf := by
  rw [toNnf]
  rfl

/-- A negated atom is its own normal form. -/
theorem toNnf_neg_of_isAtom {a : Formula} (h : a.isAtom = true) : (neg a).toNnf = neg a := by
  rcases isAtom_iff.mp h with ⟨value, rfl⟩ | ⟨name, rfl⟩
  · rw [toNnf]; rfl
  · rw [toNnf]; rfl

/-- **A step at the root does not change the normal form.** -/
theorem toNnf_simplify (f : Formula) : f.simplify.toNnf = f.toNnf := by
  conv => rhs; rw [toNnf]
  split <;> rename_i h <;> rw [h]
  case h_1 => exact toNnf_lit _
  case h_2 => exact toNnf_var _
  case h_3 a =>
    by_cases ha : a.isAtom = true
    · rw [toNnf_neg_of_isAtom ha, if_pos ha]
    · rw [if_neg ha]
  case h_4 => exact toNnf_and _ _
  case h_5 => exact toNnf_or _ _

/-- **Induction along the normal form.**  A relation holds between every formula and its
normal form if a step may be put in front of it, if it holds between an atom or a negated
atom and itself, and if `∧` and `⋁` respect it. -/
theorem toNnf_induction {motive : Formula → Formula → Prop}
    (step : ∀ {f g : Formula}, motive f.simplify g → motive f g)
    (atom : ∀ {a : Formula}, a.isAtom = true → motive a a)
    (negAtom : ∀ {a : Formula}, a.isAtom = true → motive (neg a) (neg a))
    (junction : ∀ {op : BinaryOp} {a b a' b' : Formula}, op = .and ∨ op = .or →
      motive a a' → motive b b' → motive (bin op a b) (bin op a' b')) (f : Formula) :
    motive f f.toNnf := by
  -- the recursion goes on with the formula after the step
  have hsimplify : ∀ {f g : Formula}, f.simplify = g → motive g g.toNnf → motive f f.toNnf := by
    rintro f _ rfl hg
    rw [toNnf_simplify] at hg
    exact step hg
  induction f using toNnf.induct with
  | case1 f value h => exact hsimplify h (by rw [toNnf_lit]; exact atom rfl)
  | case2 f name h => exact hsimplify h (by rw [toNnf_var]; exact atom rfl)
  | case3 f a h ha => exact hsimplify h (by rw [toNnf_neg_of_isAtom ha]; exact negAtom ha)
  | case4 f a h _ ih => exact hsimplify h ih
  | case5 f a b h iha ihb =>
    exact hsimplify h (by rw [toNnf_and]; exact junction (.inl rfl) iha ihb)
  | case6 f a b h iha ihb =>
    exact hsimplify h (by rw [toNnf_or]; exact junction (.inr rfl) iha ihb)
  | case7 f a b h ih => exact hsimplify h ih
  | case8 f a b h ih => exact hsimplify h ih

end Sentential.Formula
