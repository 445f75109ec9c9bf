import Sentential.Proofs.Answers

/-!
# What has no place in a tableau

A tableau is built while the formula is walked through, and building stops at the first
subformula for which there is no kind of node: a `→` or `↔`, or the negation of something that
is no atom.  Whether a formula is in normal form is checked without building anything, and comes
to the same, since such subformulas are all that can be wrong with it.

## Main definitions

* `Formula.isMisplaced` — whether the root of a formula has no place in a normal form.

## Main results

* `Formula.isNnf_iff_forall_subformulas` — a formula is in normal form if nothing in it is
  misplaced.
* `NodeTable.build_eq_error` — building stops at the first misplaced subformula.
* `Formula.tableau_eq_ok_or_first_misplaced` — **the formulas that have a tableau**, and what
  the others are rejected for.
-/

namespace Sentential

namespace Formula

/-- Whether the root of a formula has no place in a normal form, whatever its parts are. -/
def isMisplaced : Formula → Bool
  | .lit _ => false
  | .var _ => false
  | .neg a => !a.isAtom
  | .bin .and _ _ => false
  | .bin .or _ _ => false
  | .bin .cond _ _ => true
  | .bin .iff _ _ => true

/-- **A formula is in normal form exactly if none of its subformulas is misplaced.**  The operand
of a negation has to be looked at only if it is an atom, and then there is nothing in it. -/
theorem isNnf_iff_forall_subformulas {f : Formula} :
    f.isNnf = true ↔ ∀ g ∈ f.subformulas, g.isMisplaced = false := by
  induction f with
  | lit value => simp [isNnf, subformulas, isMisplaced]
  | var name => simp [isNnf, subformulas, isMisplaced]
  | neg a ih =>
    cases a with
    | lit value => simp [isNnf, subformulas, isMisplaced, isAtom]
    | var name => simp [isNnf, subformulas, isMisplaced, isAtom]
    | neg a => simp [isNnf, subformulas, isMisplaced, isAtom]
    | bin op a b => simp [isNnf, subformulas, isMisplaced, isAtom]
  | bin op a b iha ihb =>
    have hparts : (∀ g ∈ a.subformulas ++ b.subformulas, g.isMisplaced = false)
        ↔ a.isNnf = true ∧ b.isNnf = true := by
      rw [List.forall_mem_append, iha, ihb]
    rw [subformulas, List.forall_mem_cons, hparts]
    cases op <;> simp [isNnf, isMisplaced]

/-- The same for the search for the first of them. -/
theorem find?_isMisplaced_eq_none_iff {f : Formula} :
    f.subformulas.find? isMisplaced = none ↔ f.isNnf = true := by
  simp only [isNnf_iff_forall_subformulas, List.find?_eq_none, Bool.not_eq_true]

end Formula

namespace NodeTable

/-- **Building stops at the first misplaced subformula**, whatever has been built before. -/
theorem build_eq_error {f g : Formula} (h : f.subformulas.find? Formula.isMisplaced = some g) :
    ∀ (t : NodeTable) (parent? : Option Nat), t.build parent? f = .error (.unsupported g) := by
  induction f with
  | lit value => simp [Formula.subformulas, Formula.isMisplaced] at h
  | var name => simp [Formula.subformulas, Formula.isMisplaced] at h
  | neg a _ =>
    intro t parent?
    cases a with
    | lit value => simp [Formula.subformulas, Formula.isMisplaced, Formula.isAtom] at h
    | var name => simp [Formula.subformulas, Formula.isMisplaced, Formula.isAtom] at h
    | neg a =>
      obtain rfl : Formula.neg (.neg a) = g := Option.some.inj h
      rfl
    | bin op a b =>
      obtain rfl : Formula.neg (.bin op a b) = g := Option.some.inj h
      rfl
  | bin op a b iha ihb =>
    intro t parent?
    have hbranch : ∀ {disjunctive : Bool}, op.branching? = some disjunctive →
        (a.subformulas ++ b.subformulas).find? Formula.isMisplaced = some g →
          t.build parent? (.bin op a b) = .error (.unsupported g) := by
      intro disjunctive hop hfind
      rw [List.find?_append] at hfind
      rw [build_of_branching hop]
      cases ha : a.subformulas.find? Formula.isMisplaced with
      | some g' =>
        rw [ha, Option.some_or] at hfind
        rw [iha (ha.trans hfind)]
        rfl
      | none =>
        -- the first part is built, and the second one is come to
        rw [ha, Option.none_or] at hfind
        obtain ⟨⟨t₂, left⟩, hleft⟩ := exists_build_eq_ok
          (Formula.find?_isMisplaced_eq_none_iff.mp ha)
          (t.push ⟨(Formula.bin op a b).text, parent?, .branch disjunctive []⟩) (some t.size)
        rw [hleft]
        show ((t₂.attach t.size left).build (some t.size) b).map _ = _
        rw [ihb hfind]
        rfl
    have hroot : op.branching? = none → (Formula.bin op a b).isMisplaced = true →
        t.build parent? (.bin op a b) = .error (.unsupported g) := by
      intro hop hmisplaced
      rw [Formula.subformulas, List.find?_cons_of_pos hmisplaced] at h
      rw [build_of_not_branching hop, Option.some.inj h]
    cases op with
    | and => exact hbranch rfl h
    | or => exact hbranch rfl h
    | cond => exact hroot rfl rfl
    | iff => exact hroot rfl rfl

end NodeTable

/-! ### Tableaux -/

/-- **The formulas that have a tableau** are those in normal form.  Any other is rejected for
the first of its subformulas in preorder that has no place in one, be it a `→`, a `↔` or the
negation of something that is no atom, and the report shows the canonical text of that one. -/
theorem Formula.tableau_eq_ok_or_first_misplaced (f : Formula) :
    ((∃ t, f.tableau = .ok t) ↔ f.isNnf = true) ∧
    (f.isNnf = false → ∃ before g after, f.subformulas = before ++ g :: after ∧
      g.isMisplaced = true ∧ (∀ g' ∈ before, g'.isMisplaced = false) ∧
      f.tableau = .error (.unsupported g) ∧
      (TableauError.unsupported g).message
        = "cannot build a tableau for '" ++ g.text ++ "': not in negation-normal form") := by
  have hreject : f.isNnf = false → ∃ g, f.subformulas.find? isMisplaced = some g ∧
      f.tableau = .error (.unsupported g) := by
    intro hnnf
    have hsome : f.subformulas.find? isMisplaced ≠ none := by
      rw [Ne, find?_isMisplaced_eq_none_iff, hnnf]
      exact Bool.false_ne_true
    obtain ⟨g, hg⟩ := Option.ne_none_iff_exists'.mp hsome
    exact ⟨g, hg, by rw [tableau, NodeTable.build_eq_error hg ⟨#[]⟩ none]; rfl⟩
  refine ⟨⟨?_, exists_tableau_eq_ok⟩, fun hnnf => ?_⟩
  · rintro ⟨t, ht⟩
    cases hnnf : f.isNnf with
    | true => rfl
    | false =>
      obtain ⟨g, -, herror⟩ := hreject hnnf
      cases ht.symm.trans herror
  · obtain ⟨g, hg, herror⟩ := hreject hnnf
    obtain ⟨hmisplaced, before, after, hsplit, hbefore⟩ := List.find?_eq_some_iff_append.mp hg
    exact ⟨before, g, after, hsplit, hmisplaced, fun g' hg' => by simpa using hbefore g' hg',
      herror, rfl⟩

/-- In `(T∧¬(p⋁q))⋁((p→q)∧¬¬r)` three subformulas have no place in a tableau, and the first
of them is `¬(p⋁q)`.  The formula is rejected for that one. -/
theorem Formula.tableau_eq_ok_or_first_misplaced_negated_disjunction :
    ∃ f : Formula, f = .disj (.conj (.lit true) (.neg (.disj (.var "p") (.var "q"))))
        (.conj (.cond (.var "p") (.var "q")) (.neg (.neg (.var "r")))) ∧
      f.count isMisplaced = 3 ∧ f.isNnf = false ∧ (¬ ∃ t, f.tableau = .ok t) ∧
      ∃ before after, f.subformulas = before ++ .neg (.disj (.var "p") (.var "q")) :: after ∧
        (∀ g' ∈ before, g'.isMisplaced = false) ∧
        f.tableau = .error (.unsupported (.neg (.disj (.var "p") (.var "q")))) ∧
        (TableauError.unsupported (.neg (.disj (.var "p") (.var "q")))).message
          = "cannot build a tableau for '¬(p⋁q)': not in negation-normal form" := by
  obtain ⟨haccept, hreject⟩ := tableau_eq_ok_or_first_misplaced
    (.disj (.conj (.lit true) (.neg (.disj (.var "p") (.var "q"))))
      (.conj (.cond (.var "p") (.var "q")) (.neg (.neg (.var "r")))))
  obtain ⟨before, g, after, hsplit, -, hbefore, herror, hmessage⟩ := hreject rfl
  -- building does end with an error, which names the subformula
  obtain rfl : Formula.neg (.disj (.var "p") (.var "q")) = g :=
    TableauError.unsupported.inj (Except.error.inj herror)
  exact ⟨_, rfl, rfl, rfl, fun h => Bool.false_ne_true (haccept.mp h), before, after, hsplit,
    hbefore, herror, hmessage⟩

end Sentential
