import Mathlib.Data.List.Infix
import Mathlib.Data.List.TakeWhile
import Sentential.Proofs.OneScan

/-!
# White space in a text

White space is dropped last, when the pairs `<>` have been found.  So it says nothing, wherever
it stands and however much of it there is, with one exception: between a `<` and a `>` it keeps
the two from being read together, and to drop it beforehand makes a pair of them.  A text is
normalised as it would be without its white space exactly if it has no such place.

## Main definitions

* `SplitsPair` — white space, and nothing else, stands between a `<` and a `>` of the text.

## Main results

* `rewriteScan_dropBlanks` — a text that splits no pair is normalised as without its white space.
* `length_rewriteScan_dropBlanks_lt` — one that does loses characters with it.
* `blanks_only_split_pairs` — **white space has no meaning but to split a pair.**
-/

namespace Sentential

/-! ### Split pairs -/

/-- A `<` and a `>` of the text have white space between them, and nothing else. -/
def SplitsPair (s : List Char) : Prop :=
  ∃ gap : List Char, gap ≠ [] ∧ (∀ c ∈ gap, isBlank c = true) ∧ '<' :: (gap ++ ['>']) <:+: s

theorem SplitsPair.cons {s : List Char} (h : SplitsPair s) (c : Char) : SplitsPair (c :: s) := by
  obtain ⟨gap, hne, hblank, hinfix⟩ := h
  exact ⟨gap, hne, hblank, List.infix_cons hinfix⟩

/-- A pair is split at a `<` if the white space behind it, of which there is some, ends at
a `>`. -/
theorem splitsPair_iff_exists_tail {s : List Char} : SplitsPair s ↔
    ∃ t ∈ s.tails, t.head? = some '<' ∧ t.tail.takeWhile isBlank ≠ [] ∧
      (t.tail.dropWhile isBlank).head? = some '>' := by
  simp only [List.mem_tails]
  constructor
  · rintro ⟨gap, hne, hblank, u, v, rfl⟩
    have htake : (gap ++ '>' :: v).takeWhile isBlank = gap := by
      rw [List.takeWhile_append_of_pos hblank, List.takeWhile_cons_of_neg (by decide),
        List.append_nil]
    have hdrop : (gap ++ '>' :: v).dropWhile isBlank = '>' :: v := by
      rw [List.dropWhile_append_of_pos hblank, List.dropWhile_cons_of_neg (by decide)]
    refine ⟨'<' :: (gap ++ '>' :: v), ⟨u, by simp⟩, rfl, ?_, ?_⟩
    · rwa [List.tail_cons, htake]
    · rw [List.tail_cons, hdrop, List.head?_cons]
  · rintro ⟨t, ⟨u, rfl⟩, hopen, hne, hclose⟩
    obtain ⟨t, rfl⟩ := List.head?_eq_some_iff.mp hopen
    obtain ⟨v, hv⟩ := List.head?_eq_some_iff.mp hclose
    rw [List.tail_cons] at hne hv
    refine ⟨t.takeWhile isBlank, hne, fun c hc => List.mem_takeWhile_imp hc, u, v, ?_⟩
    have ht : t.takeWhile isBlank ++ '>' :: v = t := by rw [← hv, List.takeWhile_append_dropWhile]
    simp [ht]

instance (s : List Char) : Decidable (SplitsPair s) :=
  decidable_of_iff _ splitsPair_iff_exists_tail.symm

/-! ### Texts without split pairs -/

theorem ne_of_isBlank {c d : Char} (hc : isBlank c = true) (hd : isBlank d = false) : c ≠ d := by
  rintro rfl
  exact Bool.noConfusion (hc.symm.trans hd)

/-- Of white space nothing is left, as it is no shorthand. -/
theorem rewriteChar_of_isBlank {c : Char} (h : isBlank c = true) : rewriteChar true c = [] := by
  have hnone : shorthand? c = none := shorthand?_eq_none_iff.mpr
    ⟨ne_of_isBlank h (by decide), ne_of_isBlank h (by decide), ne_of_isBlank h (by decide),
      ne_of_isBlank h (by decide)⟩
  simp [rewriteChar, hnone, h]

/-- Any other character becomes one character. -/
theorem length_rewriteChar {c : Char} (h : isBlank c = false) :
    (rewriteChar true c).length = 1 := by
  unfold rewriteChar
  split
  · rfl
  · rw [h, Bool.and_false, if_neg Bool.false_ne_true]
    rfl

theorem dropBlanks_cons_of_isBlank {c : Char} (h : isBlank c = true) (s : List Char) :
    dropBlanks (c :: s) = dropBlanks s :=
  List.filter_cons_of_neg (by simp [h])

theorem dropBlanks_cons_of_not_isBlank {c : Char} (h : isBlank c = false) (s : List Char) :
    dropBlanks (c :: s) = c :: dropBlanks s :=
  List.filter_cons_of_pos (by simp [h])

theorem dropBlanks_append (s t : List Char) :
    dropBlanks (s ++ t) = dropBlanks s ++ dropBlanks t :=
  List.filter_append s t

/-- What comes first without the white space has only white space in front of it. -/
theorem exists_gap_of_head?_dropBlanks {c : Char} {s : List Char}
    (h : (dropBlanks s).head? = some c) :
    ∃ gap t : List Char, (∀ d ∈ gap, isBlank d = true) ∧ s = gap ++ c :: t := by
  obtain ⟨t, ht⟩ := List.head?_eq_some_iff.mp h
  obtain ⟨gap, rest, hs, hgap, -⟩ := List.filter_eq_cons_iff.mp ht
  exact ⟨gap, rest, fun d hd => by simpa using hgap d hd, hs⟩

/-- **Where no pair is split, the scan can do without the white space.** -/
theorem rewriteScan_dropBlanks {s : List Char} (h : ¬ SplitsPair s) :
    rewriteScan true (dropBlanks s) = rewriteScan true s := by
  fun_induction rewriteScan true s with
  | case1 => rfl
  | case2 s ih =>
    have hs : ¬ SplitsPair s := fun hsplit => h ((hsplit.cons '>').cons '<')
    rw [dropBlanks_cons_of_not_isBlank (by decide), dropBlanks_cons_of_not_isBlank (by decide),
      rewriteScan, ih hs]
  | case3 c s hpair ih =>
    have hs : ¬ SplitsPair s := fun hsplit => h (hsplit.cons c)
    cases hc : isBlank c with
    | true => rw [dropBlanks_cons_of_isBlank hc, rewriteChar_of_isBlank hc, ih hs, List.nil_append]
    | false =>
      -- a `>` that comes to stand behind a `<` was there before, or a pair is split
      have hnext : c = '<' → (dropBlanks s).head? ≠ some '>' := by
        rintro rfl hhead
        obtain ⟨gap, t, hblank, rfl⟩ := exists_gap_of_head?_dropBlanks hhead
        cases gap with
        | nil => exact hpair t rfl rfl
        | cons d gap => exact h ⟨d :: gap, List.cons_ne_nil d gap, hblank, [], t, by simp⟩
      rw [dropBlanks_cons_of_not_isBlank hc, rewriteScan_cons hnext, ih hs]

/-! ### Texts with split pairs -/

/-- A `>` that no `<` stands in front of is a conditional. -/
theorem rewriteScan_close (t : List Char) :
    rewriteScan true ('>' :: t) = BinaryOp.cond.symbol :: rewriteScan true t :=
  rewriteScan_cons (by simp)

/-- A character more in front makes one character more at most, and none if it begins a pair. -/
theorem length_rewriteScan_cons_le (c : Char) (s : List Char) :
    (rewriteScan true (c :: s)).length ≤ (rewriteScan true s).length + 1 := by
  by_cases hpair : c = '<' → s.head? ≠ some '>'
  · have hone : (rewriteChar true c).length ≤ 1 := by
      cases hc : isBlank c with
      | true => simp [rewriteChar_of_isBlank hc]
      | false => rw [length_rewriteChar hc]
    rw [rewriteScan_cons hpair, List.length_append]
    omega
  · rw [Classical.not_imp, not_not] at hpair
    obtain ⟨rfl, hhead⟩ := hpair
    obtain ⟨t, rfl⟩ := List.head?_eq_some_iff.mp hhead
    rw [rewriteScan, rewriteScan_close, List.length_cons, List.length_cons]
    omega

/-- To drop the white space beforehand never makes a text longer. -/
theorem length_rewriteScan_dropBlanks_le (s : List Char) :
    (rewriteScan true (dropBlanks s)).length ≤ (rewriteScan true s).length := by
  fun_induction rewriteScan true s with
  | case1 => exact Nat.le_refl _
  | case2 s ih =>
    rw [dropBlanks_cons_of_not_isBlank (by decide), dropBlanks_cons_of_not_isBlank (by decide),
      rewriteScan, List.length_cons, List.length_cons]
    omega
  | case3 c s _ ih =>
    cases hc : isBlank c with
    | true => rwa [dropBlanks_cons_of_isBlank hc, rewriteChar_of_isBlank hc, List.nil_append]
    | false =>
      have hcons := length_rewriteScan_cons_le c (dropBlanks s)
      rw [dropBlanks_cons_of_not_isBlank hc, List.length_append, length_rewriteChar hc]
      omega

theorem rewriteScan_blanks_append {gap : List Char} (h : ∀ c ∈ gap, isBlank c = true)
    (t : List Char) : rewriteScan true (gap ++ t) = rewriteScan true t := by
  induction gap with
  | nil => rfl
  | cons c gap ih =>
    rw [List.forall_mem_cons] at h
    have hopen : c ≠ '<' := ne_of_isBlank h.1 (by decide)
    rw [List.cons_append, rewriteScan_cons fun hc => absurd hc hopen, rewriteChar_of_isBlank h.1,
      ih h.2, List.nil_append]

/-- A split pair is a plain `<` and a conditional. -/
theorem rewriteScan_append_gap {gap : List Char} (hne : gap ≠ [])
    (hblank : ∀ c ∈ gap, isBlank c = true) (u v : List Char) :
    rewriteScan true (u ++ '<' :: (gap ++ '>' :: v))
      = rewriteScan true u ++ '<' :: BinaryOp.cond.symbol :: rewriteScan true v := by
  have hnext : (gap ++ '>' :: v).head? ≠ some '>' := by
    obtain ⟨c, gap, rfl⟩ := List.exists_cons_of_ne_nil hne
    rw [List.cons_append, List.head?_cons, Ne, Option.some.injEq]
    exact ne_of_isBlank (hblank c List.mem_cons_self) (by decide)
  have hopen : rewriteChar true '<' = ['<'] := by decide
  rw [rewriteScan_append (by simp), rewriteScan_cons fun _ => hnext,
    rewriteScan_blanks_append hblank, rewriteScan_close, hopen, List.singleton_append]

/-- A pair is a biconditional. -/
theorem rewriteScan_append_pair (u v : List Char) :
    rewriteScan true (u ++ '<' :: '>' :: v)
      = rewriteScan true u ++ BinaryOp.iff.symbol :: rewriteScan true v := by
  rw [rewriteScan_append (by simp)]
  rfl

/-- **Without the white space a split pair is a pair.** -/
theorem dropBlanks_append_gap {gap : List Char} (hblank : ∀ c ∈ gap, isBlank c = true)
    (u v : List Char) :
    dropBlanks (u ++ '<' :: (gap ++ '>' :: v)) = dropBlanks u ++ '<' :: '>' :: dropBlanks v := by
  have hgap : dropBlanks gap = [] := List.filter_eq_nil_iff.mpr fun c hc => by simp [hblank c hc]
  rw [dropBlanks_append, dropBlanks_cons_of_not_isBlank (by decide), dropBlanks_append, hgap,
    dropBlanks_cons_of_not_isBlank (by decide), List.nil_append]

/-- **A text that splits a pair gets shorter** if its white space is dropped beforehand. -/
theorem length_rewriteScan_dropBlanks_lt {s : List Char} (h : SplitsPair s) :
    (rewriteScan true (dropBlanks s)).length < (rewriteScan true s).length := by
  obtain ⟨gap, hne, hblank, u, v, rfl⟩ := h
  have hu := length_rewriteScan_dropBlanks_le u
  have hv := length_rewriteScan_dropBlanks_le v
  rw [List.append_assoc, List.cons_append, List.append_assoc, List.singleton_append,
    dropBlanks_append_gap hblank, rewriteScan_append_pair, rewriteScan_append_gap hne hblank]
  simp only [List.length_append, List.length_cons]
  omega

/-! ### All texts -/

/-- **White space has no meaning but to split a pair.**  A text is normalised as without its
white space exactly if nowhere there is white space, and nothing else, between a `<` and a `>`.
A text without such a place is also read as without its white space, or rejected for the same
fault at the same place, within every limit. -/
theorem blanks_only_split_pairs (s : List Char) :
    (normalize true s = normalize true (dropBlanks s) ↔ ¬ SplitsPair s) ∧
    (¬ SplitsPair s → ∀ limit, parse limit s = parse limit (dropBlanks s)) := by
  have hsame : ¬ SplitsPair s → normalize true s = normalize true (dropBlanks s) := fun h => by
    rw [normalize_eq_rewriteScan, normalize_eq_rewriteScan, rewriteScan_dropBlanks h]
  refine ⟨⟨fun heq hsplit => ?_, hsame⟩, fun h limit => ?_⟩
  · have hlt := length_rewriteScan_dropBlanks_lt hsplit
    rw [← normalize_eq_rewriteScan, ← normalize_eq_rewriteScan, heq] at hlt
    exact Nat.lt_irrefl _ hlt
  · rw [← parse_normalize true, hsame h, parse_normalize]

/-- The text `p < > q` splits a pair, so that it is the conditional from a variable `p<` to `q`,
while `p<>q` is a biconditional.  The text `(p <> <\t) ^ T`, with a no-break space in front of
the pair, splits none, and is read as `(p<><)^T` is. -/
theorem blanks_only_split_pairs_less_than :
    SplitsPair "p < > q".toList ∧
      normalize true "p < > q".toList ≠ normalize true "p<>q".toList ∧
      parse 1 "p < > q".toList = .ok (.cond (.var "p<") (.var "q")) ∧
      parse 1 "p<>q".toList = .ok (.iff (.var "p") (.var "q")) ∧
      ¬ SplitsPair "(p\u00a0<> <\t) ^ T".toList ∧
      parse 2 "(p\u00a0<> <\t) ^ T".toList = parse 2 "(p<><)^T".toList ∧
      parse 2 "(p<><)^T".toList = .ok (.conj (.iff (.var "p") (.var "<")) (.lit true)) := by
  have hsplit : SplitsPair "p < > q".toList := by decide
  have hnot : ¬ SplitsPair "(p\u00a0<> <\t) ^ T".toList := by decide
  refine ⟨hsplit, fun h => ?_, rfl, rfl, hnot, ?_, rfl⟩
  · exact (blanks_only_split_pairs "p < > q".toList).1.mp h hsplit
  · exact (blanks_only_split_pairs _).2 hnot 2

end Sentential
