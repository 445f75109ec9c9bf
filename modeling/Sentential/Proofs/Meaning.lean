import Sentential.Formula.NormalForm
import Sentential.Proofs.Variables
import Sentential.Valuation.Evaluation

/-!
# Rewriting keeps the meaning

A step towards the normal form does not change what a formula evaluates to, in any
symbol table.  The table may lack variables: evaluation goes from left to right and
always through both operands, a step keeps the order in which operands are first met,
and where it copies them the copies come too late to be the first to fail.  For the same
reason a step keeps the variables and their order.

The normal form is reached by steps at the root and below, so it keeps whatever steps
keep and connectives respect.

## Main results

* `Formula.apply_toNnf` — what a step keeps, and a connective computes from its operands,
  the normal form keeps.
* `Formula.evaluate_simplify`, `Formula.collect_simplify` — a step keeps the value and
  the variables.
* `Formula.evaluate_and_variableNames_rewrite` — **so does the normal form.**
-/

namespace Sentential.Formula

/-- **What every step keeps, the normal form keeps**, if the value of a connective
depends only on those of its operands. -/
theorem apply_toNnf {α : Type} (m : Formula → α) (hstep : ∀ f, m f.simplify = m f)
    (hbin : ∀ {op : BinaryOp} {a b a' b' : Formula}, m a = m a' → m b = m b' →
      m (bin op a b) = m (bin op a' b')) (f : Formula) : m f.toNnf = m f := by
  refine toNnf_induction (motive := fun f g => m g = m f) ?_ (fun _ => rfl) (fun _ => rfl)
    (fun _ => hbin) f
  intro f g h
  rw [h, hstep]

/-- The step of a negation, unless it is a double one. -/
theorem simplify_neg_of_not_isNegation {a : Formula} (h : a.isNegation = false) :
    (neg a).simplify = a.expand.deny := by
  cases a with
  | neg a => simp [isNegation] at h
  | lit value => rfl
  | var name => rfl
  | bin op a b => rfl

/-- A step at the root keeps what defining away, denying and cancelling a double negation
keep. -/
theorem apply_simplify {α : Type} {m : Formula → α} (hexpand : ∀ f, m f.expand = m f)
    (hdeny : ∀ f, m f.deny = m (neg f)) (hneg : ∀ {f g}, m f = m g → m (neg f) = m (neg g))
    (hdouble : ∀ f, m (neg (neg f)) = m f) (f : Formula) : m f.simplify = m f := by
  cases f with
  | lit value => rfl
  | var name => rfl
  | bin op a b => exact hexpand (bin op a b)
  | neg a =>
    cases ha : a.isNegation with
    | false => rw [simplify_neg_of_not_isNegation ha, hdeny, hneg (hexpand a)]
    | true =>
      cases a with
      | neg a => exact (hdouble a).symm
      | _ => simp [isNegation] at ha

/-! ### Values -/

/-- Defining away a connective keeps the value.  Of a biconditional both operands are
copied, and the copies fail only where the operands in front of them have failed. -/
theorem evaluate_expand (env : SymbolTable) (f : Formula) :
    f.expand.evaluate env = f.evaluate env := by
  cases f with
  | lit value => rfl
  | var name => rfl
  | neg a => rfl
  | bin op a b =>
    cases op with
    | and => rfl
    | or => rfl
    | cond =>
      rw [expand]
      simp only [evaluate_bin, evaluate_neg]
      cases a.evaluate env <;> rfl
    | iff =>
      rw [expand]
      simp only [evaluate_bin, evaluate_neg]
      rcases a.evaluate env with e | left
      · rfl
      rcases b.evaluate env with e | right
      · rfl
      · cases left <;> cases right <;> rfl

theorem evaluate_dual {op dual : BinaryOp}
    (h : ∀ left right, op.apply (!left) (!right) = !dual.apply left right) (env : SymbolTable)
    (a b : Formula) :
    (bin op (neg a) (neg b)).evaluate env = (neg (bin dual a b)).evaluate env := by
  simp only [evaluate_bin, evaluate_neg]
  rcases a.evaluate env with e | left
  · rfl
  rcases b.evaluate env with e | right
  · rfl
  · exact congrArg Except.ok (h left right)

/-- The laws of De Morgan keep the value of a negation. -/
theorem evaluate_deny (env : SymbolTable) (f : Formula) :
    f.deny.evaluate env = (neg f).evaluate env := by
  cases f with
  | lit value => rfl
  | var name => rfl
  | neg a => rfl
  | bin op a b =>
    cases op with
    | cond => rfl
    | iff => rfl
    | and => exact evaluate_dual (by decide) env a b
    | or => exact evaluate_dual (by decide) env a b

/-- **A step keeps the value of a formula**, and the variable it fails for. -/
theorem evaluate_simplify (env : SymbolTable) (f : Formula) :
    f.simplify.evaluate env = f.evaluate env := by
  refine apply_simplify (m := evaluate env) (evaluate_expand env) (evaluate_deny env) ?_ ?_ f
  · intro f g h
    rw [evaluate_neg, evaluate_neg, h]
  · intro f
    rw [evaluate_neg, evaluate_neg]
    rcases f.evaluate env with e | value
    · rfl
    · cases value <;> rfl

/-! ### Variables -/

/-- Defining away a connective meets the same variables in the same order.  When the
copies of a biconditional are met, all their variables have been. -/
theorem collect_expand (seen : List String) (f : Formula) :
    f.expand.collect seen = f.collect seen := by
  cases f with
  | lit value => rfl
  | var name => rfl
  | neg a => rfl
  | bin op a b =>
    cases op with
    | and => rfl
    | or => rfl
    | cond => rfl
    | iff =>
      have ha : a.collect (b.collect (a.collect seen)) = b.collect (a.collect seen) := by
        refine collect_eq_self fun name hname => ?_
        exact (mem_collect b _).mpr (Or.inl ((mem_collect a seen).mpr (Or.inr hname)))
      have hb : b.collect (b.collect (a.collect seen)) = b.collect (a.collect seen) := by
        refine collect_eq_self fun name hname => ?_
        exact (mem_collect b _).mpr (Or.inr hname)
      show b.collect (a.collect (b.collect (a.collect seen))) = b.collect (a.collect seen)
      rw [ha, hb]

/-- **A step keeps the variables of a formula and their order.** -/
theorem collect_simplify (f : Formula) : ∀ seen : List String,
    f.simplify.collect seen = f.collect seen := by
  refine congrFun (apply_simplify (m := fun f seen => f.collect seen) ?_ ?_ ?_ ?_ f)
  · exact fun f => funext fun seen => collect_expand seen f
  · intro f
    rcases f with _ | _ | _ | ⟨_ | _ | _ | _, _, _⟩ <;> rfl
  · exact fun h => h
  · exact fun _ => rfl

/-! ### The normal form -/

theorem evaluate_toNnf (env : SymbolTable) (f : Formula) :
    f.toNnf.evaluate env = f.evaluate env := by
  refine apply_toNnf (evaluate env) (evaluate_simplify env) ?_ f
  intro op a b a' b' ha hb
  rw [evaluate_bin, evaluate_bin, ha, hb]

theorem collect_toNnf (f : Formula) : ∀ seen : List String,
    f.toNnf.collect seen = f.collect seen := by
  refine congrFun (apply_toNnf (fun f seen => f.collect seen) ?_ ?_ f)
  · exact fun f => funext (collect_simplify f)
  · intro op a b a' b' ha hb
    funext seen
    rw [collect, collect, congrFun ha, congrFun hb]

/-- **Rewriting keeps the meaning.**  A step and the normal form evaluate to what the
formula evaluates to, be it a value or the failure to find a variable, in every symbol
table; and they have the same variables in the same order. -/
theorem evaluate_and_variableNames_rewrite (f : Formula) :
    (∀ env : SymbolTable, f.simplify.evaluate env = f.evaluate env ∧
      f.toNnf.evaluate env = f.evaluate env) ∧
    f.simplify.variableNames = f.variableNames ∧ f.toNnf.variableNames = f.variableNames :=
  ⟨fun env => ⟨evaluate_simplify env f, evaluate_toNnf env f⟩, collect_simplify f [],
    collect_toNnf f []⟩

end Sentential.Formula
