import Mathlib.Data.List.Infix
import Sentential.Proofs.BracketFaults

/-!
# Parentheses in the prefixes of a text

Whether a text is balanced can be told without a walk, from the numbers of its parentheses: no
prefix has more that close than there were open, and the whole text closes them all.

## Main definitions

* `NeverOverclosed` — no prefix of a text closes more than was open.

## Main results

* `neverOverclosed_iff_forall_not_overclosed` — it is enough to look at the positions.
* `balanced_iff` — **which texts are balanced, by counting.**
-/

namespace Sentential

/-- In a text that starts inside `depth` open parentheses, no prefix closes more than was open. -/
def NeverOverclosed (depth : Nat) (s : List Char) : Prop :=
  ∀ p, p <+: s → p.count ')' ≤ depth + p.count '('

/-- Where nothing is open before, more `)` than `(` are too many. -/
theorem neverOverclosed_zero_iff {s : List Char} :
    NeverOverclosed 0 s ↔ ∀ p, p <+: s → p.count ')' ≤ p.count '(' := by
  simp only [NeverOverclosed, Nat.zero_add]

/-- A prefix ends at a position of the text, unless it is empty. -/
theorem neverOverclosed_iff_forall_not_overclosed {depth : Nat} {s : List Char} :
    NeverOverclosed depth s ↔ ∀ i < s.length, ¬ Overclosed depth s i := by
  constructor
  · intro h i _
    exact Nat.not_lt.mpr (h _ (List.take_prefix (i + 1) s))
  · intro h p hp
    cases p with
    | nil => exact Nat.zero_le _
    | cons c p =>
      have htake : c :: p = s.take (p.length + 1) := List.prefix_iff_eq_take.mp hp
      have hlength : p.length + 1 ≤ s.length := hp.length_le
      rw [htake]
      exact Nat.not_lt.mp (h p.length hlength)

instance (depth : Nat) (s : List Char) : Decidable (NeverOverclosed depth s) :=
  decidable_of_iff _ neverOverclosed_iff_forall_not_overclosed.symm

/-! ### Character by character -/

/-- A prefix is empty and closes nothing, or it begins as the text does. -/
theorem neverOverclosed_cons {depth : Nat} {c : Char} {s : List Char} :
    NeverOverclosed depth (c :: s) ↔
      ∀ p, p <+: s → (c :: p).count ')' ≤ depth + (c :: p).count '(' := by
  constructor
  · intro h p hp
    exact h _ ((List.prefix_cons_inj c).mpr hp)
  · intro h p hp
    rcases List.prefix_cons_iff.mp hp with rfl | ⟨q, rfl, hq⟩
    · exact Nat.zero_le _
    · exact h q hq

theorem neverOverclosed_nil (depth : Nat) : NeverOverclosed depth [] := by
  intro p hp
  rw [List.prefix_nil.mp hp]
  exact Nat.zero_le _

theorem neverOverclosed_open {depth : Nat} {s : List Char} :
    NeverOverclosed depth ('(' :: s) ↔ NeverOverclosed (depth + 1) s := by
  have hne : '(' ≠ ')' := by decide
  rw [neverOverclosed_cons]
  refine forall₂_congr fun p _ => ?_
  rw [List.count_cons_self, List.count_cons_of_ne hne]
  omega

theorem not_neverOverclosed_close_zero (s : List Char) : ¬ NeverOverclosed 0 (')' :: s) := by
  intro h
  have hfirst := h [')'] ⟨s, rfl⟩
  exact absurd hfirst (by decide)

theorem neverOverclosed_close_succ {depth : Nat} {s : List Char} :
    NeverOverclosed (depth + 1) (')' :: s) ↔ NeverOverclosed depth s := by
  have hne : ')' ≠ '(' := by decide
  rw [neverOverclosed_cons]
  refine forall₂_congr fun p _ => ?_
  rw [List.count_cons_self, List.count_cons_of_ne hne]
  omega

theorem neverOverclosed_cons_of_ne {c : Char} (hopen : c ≠ '(') (hclose : c ≠ ')') {depth : Nat}
    {s : List Char} : NeverOverclosed depth (c :: s) ↔ NeverOverclosed depth s := by
  rw [neverOverclosed_cons]
  refine forall₂_congr fun p _ => ?_
  rw [List.count_cons_of_ne hopen, List.count_cons_of_ne hclose]

/-- **Which texts are balanced, by counting.**  They never close more than was open, and they
close everything. -/
theorem balanced_iff (s : List Char) : ∀ depth : Nat,
    balanced depth s = true ↔ NeverOverclosed depth s ∧ s.count ')' = depth + s.count '(' := by
  induction s with
  | nil =>
    intro depth
    rw [balanced_nil, beq_iff_eq, and_iff_right (neverOverclosed_nil depth)]
    exact eq_comm
  | cons c s ih =>
    intro depth
    by_cases hopen : c = '('
    · subst hopen
      have hne : '(' ≠ ')' := by decide
      rw [balanced_open, ih, neverOverclosed_open, List.count_cons_self, List.count_cons_of_ne hne,
        Nat.add_right_comm, Nat.add_assoc]
    by_cases hclose : c = ')'
    · subst hclose
      have hne : ')' ≠ '(' := by decide
      cases depth with
      | zero => simp [not_neverOverclosed_close_zero]
      | succ d =>
        rw [balanced_close_succ, ih, neverOverclosed_close_succ, List.count_cons_self,
          List.count_cons_of_ne hne, Nat.add_right_comm, Nat.add_right_cancel_iff]
    · rw [balanced_cons_of_ne hopen hclose, ih, neverOverclosed_cons_of_ne hopen hclose,
        List.count_cons_of_ne hopen, List.count_cons_of_ne hclose]

theorem balanced_zero_iff {s : List Char} :
    balanced 0 s = true ↔
      (∀ p, p <+: s → p.count ')' ≤ p.count '(') ∧ s.count ')' = s.count '(' := by
  rw [balanced_iff, neverOverclosed_zero_iff, Nat.zero_add]

/-! ### The outer pair -/

/-- A pair of parentheses around a text adds one that opens, -/
theorem count_open_group (s : List Char) : ('(' :: (s ++ [')'])).count '(' = s.count '(' + 1 := by
  have hlast : [')'].count '(' = 0 := by decide
  rw [List.count_cons_self, List.count_append, hlast, Nat.add_zero]

/-- and one that closes. -/
theorem count_close_group (s : List Char) : ('(' :: (s ++ [')'])).count ')' = s.count ')' + 1 := by
  rw [List.count_cons_of_ne (by decide), List.count_append, List.count_singleton_self]

end Sentential
