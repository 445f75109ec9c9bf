import Sentential.Outline
import Sentential.Formula.Basic

/-!
# The outline of a formula

## Main definitions

* `Formula.outline` — the subformulas of a formula in preorder, with their levels
  and parents.
-/

namespace Sentential.Formula

/-- The outline of a formula that gets the number `next` and hangs from `parent?`
at a level. -/
def outlineFrom (level : Nat) (parent? : Option Nat) (next : Nat) :
    Formula → List (OutlineEntry Formula)
  | .lit value => [⟨level, parent?, .lit value⟩]
  | .var name => [⟨level, parent?, .var name⟩]
  | .neg a => ⟨level, parent?, .neg a⟩ :: a.outlineFrom (level + 1) (some next) (next + 1)
  | .bin op a b =>
    let left := a.outlineFrom (level + 1) (some next) (next + 1)
    ⟨level, parent?, .bin op a b⟩ ::
      (left ++ b.outlineFrom (level + 1) (some next) (next + 1 + left.length))

/-- The subformulas of a formula, in preorder. -/
def outline (f : Formula) : List (OutlineEntry Formula) := f.outlineFrom 0 none 0

/-- **The outline lists the subformulas in preorder.** -/
theorem map_item_outlineFrom (f : Formula) :
    ∀ (level : Nat) (parent? : Option Nat) (next : Nat),
      (f.outlineFrom level parent? next).map (·.item) = f.subformulas := by
  induction f with
  | lit value => intro _ _ _; rfl
  | var name => intro _ _ _; rfl
  | neg a ih =>
    intro level parent? next
    simp only [outlineFrom, List.map_cons, subformulas, ih]
  | bin op a b iha ihb =>
    intro level parent? next
    simp only [outlineFrom, List.map_cons, List.map_append, subformulas, iha, ihb]

end Sentential.Formula
