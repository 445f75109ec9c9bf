import Sentential.Proofs.Limits
import Sentential.Proofs.Meaning
import Sentential.Proofs.Polarity
import Sentential.Proofs.RoundTrip

/-!
# How deep the normal form nests

In the normal form a biconditional becomes two layers of connectives, every other connective
one and a negation none, but a denied atom takes a negation on top.  So the normal form nests
twice as deep as the formula at most, whether it is affirmed or denied, and can be typed within
a limit that is twice as great.

## Main results

* `Formula.depth_polarity_le` — both polarities nest twice as deep at most.
* `Formula.hasCleanNames_toNnf` — the names of the normal form can be typed.
* `Formula.depth_toNnf_le_and_parse_text_toNnf` — **the normal form can be typed within twice
  the limit.**
-/

namespace Sentential.Formula

/-- **A formula brought to normal form nests twice as deep at most**, affirmed or denied.
Neither bound can be shown without the other, as a negation turns one into the other and a
biconditional needs both. -/
theorem depth_polarity_le (f : Formula) :
    f.positive.depth ≤ 2 * f.depth ∧ f.negative.depth ≤ 2 * f.depth := by
  induction f with
  | lit value => simp [positive, negative, depth]
  | var name => simp [positive, negative, depth]
  | neg a ih =>
    obtain ⟨hpos, hneg⟩ := ih
    simp only [positive, negative, depth]
    omega
  | bin op a b iha ihb =>
    obtain ⟨hposa, hnega⟩ := iha
    obtain ⟨hposb, hnegb⟩ := ihb
    cases op <;> simp only [positive, negative, depth] <;> omega

/-- The normal form nests twice as deep at most. -/
theorem depth_toNnf_le (f : Formula) : f.toNnf.depth ≤ 2 * f.depth := by
  rw [toNnf_eq_positive]
  exact (depth_polarity_le f).1

/-- The names of the normal form are those of the formula, so they can be typed if these
can. -/
theorem hasCleanNames_toNnf {f : Formula} (h : f.HasCleanNames) : f.toNnf.HasCleanNames := by
  intro name hname
  rw [variableNames, collect_toNnf] at hname
  exact h name hname

/-- **The normal form can be typed within twice the limit.**  It nests twice as deep as the
formula at most.  And if a formula was read within some limit, from whatever text, the
canonical text of its normal form is read as the normal form within twice that limit and one
more. -/
theorem depth_toNnf_le_and_parse_text_toNnf :
    (∀ f : Formula, f.toNnf.depth ≤ 2 * f.depth) ∧
    ∀ (limit : Nat) (text : List Char) (f : Formula), parse limit text = .ok f →
      parse (2 * limit + 1) f.toNnf.text.toList = .ok f.toNnf := by
  refine ⟨depth_toNnf_le, fun limit text f h => ?_⟩
  have hclean : f.toNnf.HasCleanNames := hasCleanNames_toNnf (hasCleanNames_of_parse h)
  have hdepth : f.toNnf.depth ≤ 2 * limit + 1 + 1 := by
    have hread : f.depth ≤ limit + 1 := (parse_eq_ok_iff.mp h).2
    have hnnf := depth_toNnf_le f
    omega
  rw [toList_text]
  exact parse_chars hclean hdepth

/-- The text `p <> (q <> r)` is read within limit 2, as a formula of depth 3.  Its normal form
has depth 6, so limit 5 is enough for it and limit 4 is not. -/
theorem depth_toNnf_le_and_parse_text_toNnf_nested_biconditionals :
    parse 2 "p <> (q <> r)".toList = .ok (iff (var "p") (iff (var "q") (var "r"))) ∧
      (iff (var "p") (iff (var "q") (var "r"))).toNnf.depth
        = 2 * (iff (var "p") (iff (var "q") (var "r"))).depth ∧
      parse 5 "((p∧((q∧r)⋁(¬q∧¬r)))⋁(¬p∧((¬q⋁¬r)∧(q⋁r))))".toList
        = .ok (iff (var "p") (iff (var "q") (var "r"))).toNnf ∧
      parse 4 "((p∧((q∧r)⋁(¬q∧¬r)))⋁(¬p∧((¬q⋁¬r)∧(q⋁r))))".toList
        = .error (.depthLimitExceeded 4) := by
  have hread : parse 2 "p <> (q <> r)".toList
      = .ok (iff (var "p") (iff (var "q") (var "r"))) := rfl
  have hnnf := toNnf_eq_positive (iff (var "p") (iff (var "q") (var "r")))
  have hdepth : (iff (var "p") (iff (var "q") (var "r"))).toNnf.depth = 6 := by
    rw [hnnf]
    rfl
  have htext : (iff (var "p") (iff (var "q") (var "r"))).toNnf.text
      = "((p∧((q∧r)⋁(¬q∧¬r)))⋁(¬p∧((¬q⋁¬r)∧(q⋁r))))" := by
    rw [hnnf]
    rfl
  have hback := depth_toNnf_le_and_parse_text_toNnf.2 2 _ _ hread
  rw [htext] at hback
  have hcut := parse_eq_depthLimitExceeded (n := 4) hback (by rw [hdepth]; decide)
  exact ⟨hread, hdepth, hback, hcut⟩

end Sentential.Formula
