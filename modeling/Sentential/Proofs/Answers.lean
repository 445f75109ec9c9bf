import Sentential.Proofs.MissingVariables
import Sentential.Tableau.Build

/-!
# When there is an answer

A formula has a value and an evaluation tree in every table that has its variables, and in
no other; and it has a tableau if it is in normal form.

## Main results

* `Formula.exists_evaluate_eq_ok_iff` — when a formula has a value.
* `Formula.map_value_evaluateTree` — the tree has the value of the formula at its root, and
  fails as the evaluation fails.
* `Formula.root_of_evaluateTree` — what stands at the root of the tree, and below it.
* `Formula.exists_tableau_eq_ok` — formulas in normal form have a tableau.
-/

namespace Sentential

/-! ### Steps that can fail -/

theorem exists_of_bind_eq_ok {ε α β : Type} {x : Except ε α} {f : α → Except ε β} {b : β}
    (h : x.bind f = .ok b) : ∃ a, x = .ok a ∧ f a = .ok b := by
  cases x with
  | error e => cases h
  | ok a => exact ⟨a, rfl, h⟩

theorem exists_of_map_eq_ok {ε α β : Type} {x : Except ε α} {f : α → β} {b : β}
    (h : x.map f = .ok b) : ∃ a, x = .ok a ∧ f a = b := by
  cases x with
  | error e => cases h
  | ok a => exact ⟨a, rfl, Except.ok.inj h⟩

namespace Formula

/-! ### Values -/

/-- **A formula has a value exactly in the tables that have its variables.** -/
theorem exists_evaluate_eq_ok_iff {env : SymbolTable} {f : Formula} :
    (∃ value, f.evaluate env = .ok value) ↔ ∀ name ∈ f.variableNames, name ∈ env.names := by
  rw [← missing?_eq_none_iff, ← find?_variableNames, List.find?_eq_none]
  refine forall_congr' fun name => forall_congr' fun _ => ?_
  rw [Bool.not_eq_true, Bool.not_eq_false', SymbolTable.contains_iff_mem_names]

/-- **The tree has the value of the formula at its root**, and if there is none both fail for
the same variable. -/
theorem map_value_evaluateTree (env : SymbolTable) (f : Formula) :
    (f.evaluateTree env).map EvalTree.value = f.evaluate env := by
  induction f with
  | lit value => rfl
  | var name =>
    rw [evaluateTree_var, evaluate_var]
    cases env.get name <;> rfl
  | neg a ih =>
    -- where the tree of the operand fails, the negation could not be evaluated either
    rw [evaluateTree_neg, evaluate_neg, ← ih]
    cases a.evaluateTree env <;> rfl
  | bin op a b iha ihb =>
    rw [evaluateTree_bin, evaluate_bin, ← iha, ← ihb]
    cases a.evaluateTree env <;> cases b.evaluateTree env <;> rfl

/-- **What stands at the root of an evaluation tree**: the text and the value of the formula, and
below it the trees of its parts. -/
theorem root_of_evaluateTree {env : SymbolTable} {f : Formula} {tree : EvalTree}
    (h : f.evaluateTree env = .ok tree) :
    tree.text = f.text ∧ f.evaluate env = .ok tree.value ∧
      tree.children.map Except.ok = f.children.map (·.evaluateTree env) := by
  cases f with
  | lit value =>
    obtain rfl := Except.ok.inj h
    exact ⟨rfl, rfl, rfl⟩
  | var name =>
    rw [evaluateTree_var] at h
    obtain ⟨own, hown, rfl⟩ := exists_of_map_eq_ok h
    exact ⟨rfl, hown, rfl⟩
  | neg a =>
    rw [evaluateTree_neg] at h
    obtain ⟨child, hchild, h⟩ := exists_of_bind_eq_ok h
    obtain ⟨own, hown, rfl⟩ := exists_of_map_eq_ok h
    exact ⟨rfl, hown, by simp [children, EvalTree.children, hchild]⟩
  | bin op a b =>
    rw [evaluateTree_bin] at h
    obtain ⟨left, hleft, h⟩ := exists_of_bind_eq_ok h
    obtain ⟨right, hright, h⟩ := exists_of_bind_eq_ok h
    obtain ⟨own, hown, rfl⟩ := exists_of_map_eq_ok h
    exact ⟨rfl, hown, by simp [children, EvalTree.children, hleft, hright]⟩

end Formula

/-! ### Tableaux -/

/-- A formula in normal form is built into any table. -/
theorem NodeTable.exists_build_eq_ok {f : Formula} (h : f.isNnf = true) :
    ∀ (t : NodeTable) (parent? : Option Nat), ∃ built, t.build parent? f = .ok built := by
  induction f with
  | lit value => exact fun t parent? => ⟨_, build_of_assertion rfl t parent?⟩
  | var name => exact fun t parent? => ⟨_, build_of_assertion rfl t parent?⟩
  | neg a _ =>
    intro t parent?
    cases a with
    | lit value => exact ⟨_, build_of_assertion rfl t parent?⟩
    | var name => exact ⟨_, build_of_assertion rfl t parent?⟩
    | neg a => simp [Formula.isNnf, Formula.isAtom] at h
    | bin op a b => simp [Formula.isNnf, Formula.isAtom] at h
  | bin op a b iha ihb =>
    intro t parent?
    have hbranch : ∀ {disjunctive : Bool}, op.branching? = some disjunctive → a.isNnf = true →
        b.isNnf = true → ∃ built, t.build parent? (.bin op a b) = .ok built := by
      intro disjunctive hop ha hb
      rw [build_of_branching hop]
      obtain ⟨⟨t₂, left⟩, hleft⟩ :=
        iha ha (t.push ⟨_, parent?, .branch disjunctive []⟩) (some t.size)
      obtain ⟨⟨t₃, right⟩, hright⟩ := ihb hb (t₂.attach t.size left) (some t.size)
      rw [hleft]
      show ∃ built, ((t₂.attach t.size left).build (some t.size) b).map _ = .ok built
      rw [hright]
      exact ⟨_, rfl⟩
    cases op with
    | and =>
      rw [Formula.isNnf, Bool.and_eq_true] at h
      exact hbranch rfl h.1 h.2
    | or =>
      rw [Formula.isNnf, Bool.and_eq_true] at h
      exact hbranch rfl h.1 h.2
    | cond => simp [Formula.isNnf] at h
    | iff => simp [Formula.isNnf] at h

/-- **A formula in normal form has a tableau.** -/
theorem Formula.exists_tableau_eq_ok {f : Formula} (h : f.isNnf = true) :
    ∃ t, f.tableau = .ok t := by
  obtain ⟨built, hbuild⟩ := NodeTable.exists_build_eq_ok h ⟨#[]⟩ none
  exact ⟨_, by rw [tableau, hbuild]; rfl⟩

end Sentential
