import Sentential.Proofs.Symbols
import Sentential.Valuation.Evaluation

/-!
# Missing variables

Evaluation goes through a formula from left to right and stops at the first variable that is not
in the table.  The variables of a formula are collected by a walk of its own, which does not
stop and passes over the names that it has met.  Both walks take the operands in the same order,
and a name that is passed over stands further in front already.  So an evaluation fails for the
first of the collected names that the table lacks.  No connective spares it a variable, whatever
the values are, and no other entry of the table has a part in it.

## Main definitions

* `Formula.missing?` — the variable that the evaluation of a formula fails for.

## Main results

* `Formula.find?_collect` — the first missing name of a list into which a formula is collected.
* `Formula.evaluate_congr` — tables that agree on the variables give the same result.
* `Formula.evaluate_fails_at_first_missing` — **what an evaluation depends on.**
-/

namespace Sentential.Formula

variable {env env' : SymbolTable}

/-! ### The variable that is reported -/

/-- The variable that the evaluation of a formula fails for, if it fails. -/
def missing? (env : SymbolTable) (f : Formula) : Option String :=
  match f.evaluate env with
  | .ok _ => none
  | .error e => some e.name

theorem missing?_eq_some_iff {f : Formula} {name : String} :
    f.missing? env = some name ↔ f.evaluate env = .error ⟨name⟩ := by
  unfold missing?
  cases f.evaluate env with
  | ok value => simp
  | error e =>
    rw [Option.some.injEq, Except.error.injEq]
    exact ⟨fun h => h ▸ rfl, fun h => h ▸ rfl⟩

theorem missing?_eq_none_iff {f : Formula} :
    f.missing? env = none ↔ ∃ value, f.evaluate env = .ok value := by
  unfold missing?
  cases f.evaluate env <;> simp

@[simp] theorem missing?_lit (value : Bool) : (lit value).missing? env = none := rfl

theorem missing?_var (name : String) :
    (var name).missing? env = if !env.contains name then some name else none := by
  unfold missing?
  rw [evaluate_var, SymbolTable.get, SymbolTable.contains]
  cases env.lookup? name <;> rfl

@[simp] theorem missing?_neg (a : Formula) : (neg a).missing? env = a.missing? env := by
  unfold missing?
  rw [evaluate_neg]
  cases a.evaluate env <;> rfl

/-- What is missing in the left operand is missed first, and else what is missing in the right
one. -/
@[simp] theorem missing?_bin (op : BinaryOp) (a b : Formula) :
    (bin op a b).missing? env = (a.missing? env).or (b.missing? env) := by
  unfold missing?
  rw [evaluate_bin]
  cases a.evaluate env with
  | error e => rfl
  | ok left => cases b.evaluate env <;> rfl

/-! ### The first variable that is missing -/

/-- **Collecting the variables of a formula adds the one that its evaluation fails for** to what
is missing, if nothing that was collected before is missing. -/
theorem find?_collect (env : SymbolTable) (f : Formula) : ∀ seen : List String,
    (f.collect seen).find? (fun name => !env.contains name)
      = (seen.find? fun name => !env.contains name).or (f.missing? env) := by
  induction f with
  | lit value => intro seen; rw [collect, missing?_lit, Option.or_none]
  | var name =>
    intro seen
    rw [missing?_var]
    exact find?_insertName (fun name => !env.contains name) seen name
  | neg a ih => intro seen; rw [collect, ih, missing?_neg]
  | bin op a b iha ihb => intro seen; rw [collect, ihb, iha, missing?_bin, Option.or_assoc]

/-- The variable that an evaluation fails for is the first that is missing. -/
theorem find?_variableNames (env : SymbolTable) (f : Formula) :
    (f.variableNames.find? fun name => !env.contains name) = f.missing? env := by
  rw [variableNames, find?_collect, List.find?_nil, Option.none_or]

/-! ### Other tables -/

/-- **Tables that agree on the variables of a formula give the same result.** -/
theorem evaluate_congr {f : Formula}
    (h : ∀ name ∈ f.variableNames, env.lookup? name = env'.lookup? name) :
    f.evaluate env = f.evaluate env' := by
  induction f with
  | lit value => rfl
  | var name =>
    have hname : name ∈ (var name).variableNames := List.mem_singleton_self name
    rw [evaluate_var, evaluate_var, SymbolTable.get, SymbolTable.get, h name hname]
  | neg a ih => rw [evaluate_neg, evaluate_neg, ih h]
  | bin op a b iha ihb =>
    simp only [mem_variableNames_bin, or_imp, forall_and] at h
    rw [evaluate_bin, evaluate_bin, iha h.1, ihb h.2]

/-- **What an evaluation depends on.**  It fails for a variable exactly if this is the first of
the variables of the formula that is not in the table, and has a value if there is none.  Two
tables give the same result if each variable of the formula has the same value in both, or is in
neither. -/
theorem evaluate_fails_at_first_missing (f : Formula) (env : SymbolTable) :
    (∀ name, f.evaluate env = .error ⟨name⟩ ↔
      (f.variableNames.find? fun x => !env.contains x) = some name) ∧
    ((∃ value, f.evaluate env = .ok value) ↔
      (f.variableNames.find? fun x => !env.contains x) = none) ∧
    ∀ env' : SymbolTable, (∀ name ∈ f.variableNames, env.lookup? name = env'.lookup? name) →
      f.evaluate env = f.evaluate env' := by
  refine ⟨fun name => ?_, ?_, fun env' h => evaluate_congr h⟩
  · rw [find?_variableNames, missing?_eq_some_iff]
  · rw [find?_variableNames, missing?_eq_none_iff]

/-- With `q` false, the value of `r` has no part in `q∧r`, and that of `p⋁r` has none in the
conditional.  Still `(q∧r)→(p⋁r)` fails for `r` where only `p` and `q` are in the table.  With
all three in it, it makes no difference in what order they are and what else there is. -/
theorem evaluate_fails_at_first_missing_unneeded :
    (cond (conj (var "q") (var "r")) (disj (var "p") (var "r"))).evaluate
        ⟨[("p", true), ("q", false)]⟩ = .error ⟨"r"⟩ ∧
      (∃ value, (cond (conj (var "q") (var "r")) (disj (var "p") (var "r"))).evaluate
        ⟨[("p", false), ("q", true), ("r", true)]⟩ = .ok value) ∧
      (cond (conj (var "q") (var "r")) (disj (var "p") (var "r"))).evaluate
          ⟨[("p", false), ("q", true), ("r", true)]⟩
        = (cond (conj (var "q") (var "r")) (disj (var "p") (var "r"))).evaluate
          ⟨[("r", true), ("z", false), ("q", true), ("p", false)]⟩ := by
  obtain ⟨hmissing, -, -⟩ := evaluate_fails_at_first_missing
    (cond (conj (var "q") (var "r")) (disj (var "p") (var "r"))) ⟨[("p", true), ("q", false)]⟩
  obtain ⟨-, hvalue, hsame⟩ := evaluate_fails_at_first_missing
    (cond (conj (var "q") (var "r")) (disj (var "p") (var "r")))
    ⟨[("p", false), ("q", true), ("r", true)]⟩
  exact ⟨(hmissing "r").mpr (by decide), hvalue.mpr (by decide), hsame _ (by decide)⟩

end Sentential.Formula
