import Sentential.Formula.Basic

/-!
# The variables of a formula

The names of the variables are collected from left to right into a list that grows by
the names that are not in it yet.  A formula whose names are all in the list already
adds nothing, so it can be met again without a trace.

## Main results

* `Formula.mem_variableNames` — the variables of a formula are the names that occur.
* `Formula.collect_eq_self` — a formula without new names adds nothing.
-/

namespace Sentential.Formula

/-- After a formula, the list holds what it held before and the names that occur. -/
theorem mem_collect {name : String} (f : Formula) : ∀ seen : List String,
    name ∈ f.collect seen ↔ name ∈ seen ∨ name ∈ f.occurrences := by
  induction f with
  | lit value => intro seen; simp [collect, occurrences]
  | var x =>
    intro seen
    rw [collect, occurrences, List.mem_singleton]
    split
    · rename_i hx
      rw [List.contains_iff_mem] at hx
      constructor
      · exact Or.inl
      · rintro (h | rfl)
        · exact h
        · exact hx
    · rw [List.mem_append, List.mem_singleton]
  | neg a ih => exact ih
  | bin op a b iha ihb =>
    intro seen
    rw [collect, ihb, iha, occurrences, List.mem_append, or_assoc]

/-- **The variables of a formula are the names that occur in it.** -/
theorem mem_variableNames {name : String} {f : Formula} :
    name ∈ f.variableNames ↔ name ∈ f.occurrences := by
  rw [variableNames, mem_collect]
  simp

theorem mem_variableNames_bin {name : String} {op : BinaryOp} {a b : Formula} :
    name ∈ (bin op a b).variableNames ↔ name ∈ a.variableNames ∨ name ∈ b.variableNames := by
  simp only [mem_variableNames, occurrences, List.mem_append]

/-- **A formula whose names are all there adds nothing.** -/
theorem collect_eq_self {f : Formula} : ∀ {seen : List String},
    (∀ name ∈ f.occurrences, name ∈ seen) → f.collect seen = seen := by
  induction f with
  | lit value => intro seen _; rfl
  | var x =>
    intro seen h
    have hx : seen.contains x = true := List.contains_iff_mem.mpr (h x List.mem_cons_self)
    rw [collect, if_pos hx]
  | neg a ih => exact ih
  | bin op a b iha ihb =>
    intro seen h
    have ha := iha fun name hname => h name (List.mem_append_left _ hname)
    have hb := ihb fun name hname => h name (List.mem_append_right _ hname)
    rw [collect, ha, hb]

end Sentential.Formula
