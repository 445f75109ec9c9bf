import Sentential.Proofs.BracketFaults

/-!
# Reading within a limit

The limit is looked at before anything else on every level, so a text may be rejected for
its depth that has other faults as well.  Apart from that a limit has no part in reading:
whatever is read or reported within one limit without mention of it is read or reported
within every greater one.  A text is never cut off within as many levels as it has
connectives, since every operand lacks the connective it was split off from.

## Main definitions

* `CutAt` — a result is that of another reading, unless it was cut off at a limit.

## Main results

* `parseAt_cutAt` — to take levels away from a reading is to cut it off or to do nothing.
* `HasOperand.countP_isConnective_lt` — operands have fewer connectives.
* `parseAt_ne_depthLimitExceeded` — texts with few connectives are not cut off.
* `parse_limit_only_cuts` — **what a limit does to the reading of a text.**
-/

namespace Sentential

/-! ### Cutting off -/

/-- `r` is what `r'` is, or it was cut off at `limit`. -/
def CutAt {α : Type} (limit : Nat) (r r' : Except ParseError α) : Prop :=
  r = .error (.depthLimitExceeded limit) ∨ r = r'

namespace CutAt

variable {α β : Type} {limit : Nat}

theorem refl (r : Except ParseError α) : CutAt limit r r := .inr rfl

/-- What goes on with a result that may be cut off may be cut off there or later. -/
theorem bind {r r' : Except ParseError α} {k k' : α → Except ParseError β} (h : CutAt limit r r')
    (hk : ∀ a, CutAt limit (k a) (k' a)) : CutAt limit (r.bind k) (r'.bind k') := by
  rcases h with rfl | rfl
  · exact .inl rfl
  · cases r with
    | error e => exact .refl _
    | ok a => exact hk a

theorem map {r r' : Except ParseError α} (f : α → β) (h : CutAt limit r r') :
    CutAt limit (r.map f) (r'.map f) := by
  rcases h with rfl | rfl
  · exact .inl rfl
  · exact .refl _

end CutAt

/-- **To take levels away from a reading is to cut it off or to do nothing.** -/
theorem parseAt_cutAt {limit limit' : Nat} : ∀ {levels levels' : Nat}, levels ≤ levels' →
    ∀ s : List Char, CutAt limit (parseAt limit levels s) (parseAt limit' levels' s) := by
  intro levels
  induction levels with
  | zero => exact fun _ _ => .inl rfl
  | succ levels ih =>
    intro levels' hle s
    obtain ⟨rest, rfl⟩ := Nat.exists_eq_add_of_le' hle
    have hrest : levels ≤ rest + levels := Nat.le_add_left levels rest
    -- the two readings take the same level off the text
    rw [← Nat.add_assoc]
    cases hshape : Shape.ofChars (normalize true s) with
    | error e =>
      rw [parseAt_of_error hshape, parseAt_of_error hshape]
      exact .refl _
    | ok shape =>
      cases shape with
      | atom f =>
        rw [parseAt_of_atom hshape, parseAt_of_atom hshape]
        exact .refl _
      | negation operand =>
        rw [parseAt_of_negation hshape, parseAt_of_negation hshape]
        exact (ih hrest operand).map Formula.neg
      | binary op left right =>
        rw [parseAt_of_binary hshape, parseAt_of_binary hshape]
        exact (ih hrest left).bind fun a => (ih hrest right).map (Formula.bin op a)

/-! ### Enough levels -/

theorem Wrapped.sublist {u s : List Char} (h : Wrapped u s) : u.Sublist s := by
  cases h with
  | bare => exact .refl u
  | group => exact .cons _ (List.sublist_append_left u [')'])

/-- A connective between two texts counts, and so do those of the texts. -/
theorem countP_isConnective_append_symbol (k : Connective) (s t : List Char) :
    (s ++ k.symbol :: t).countP isConnective
      = s.countP isConnective + (t.countP isConnective + 1) := by
  rw [List.countP_append, List.countP_cons_of_pos (isConnective_symbol k)]

/-- **Operands have fewer connectives** than the text they are split off from. -/
theorem HasOperand.countP_isConnective_lt {s t : List Char} (h : HasOperand s t) :
    t.countP isConnective < (normalize true s).countP isConnective := by
  obtain ⟨shape, hshape, ht⟩ := h
  cases shape with
  | atom f => simp [Shape.operands] at ht
  | negation operand =>
    obtain rfl : t = operand := by simpa [Shape.operands] using ht
    have hle := (Shape.ofChars_eq_ok_negation hshape).1.sublist.countP_le (p := isConnective)
    rw [List.countP_cons_of_pos (isConnective_symbol .not)] at hle
    exact hle
  | binary op left right =>
    have hle := (Shape.ofChars_eq_ok_binary hshape).1.sublist.countP_le (p := isConnective)
    have hcount := countP_isConnective_append_symbol (.binary op) left right
    simp only [Shape.operands, List.mem_cons, List.not_mem_nil, or_false] at ht
    rw [Connective.symbol] at hcount
    rcases ht with rfl | rfl <;> omega

namespace Shape

/-- A single level is never too deep. -/
theorem ofChars_ne_depthLimitExceeded (s : List Char) (limit : Nat) :
    ofChars s ≠ .error (.depthLimitExceeded limit) := by
  intro h
  rw [ofChars] at h
  split at h
  · cases h
  split at h
  · cases h
  split at h
  · rw [Token.tokenize_eq] at h
    cases hfault : bracketFault? 0 0 (unwrap s) with
    | some fault =>
      rw [hfault] at h
      cases h
    | none =>
      rw [hfault] at h
      rcases eq_of_ofTokens_error h with he | he | ⟨op, he⟩ <;> cases he
  · split at h <;> cases h

end Shape

/-- **A text with fewer connectives than levels is not cut off.** -/
theorem parseAt_ne_depthLimitExceeded {limit cut : Nat} : ∀ {levels : Nat} {s : List Char},
    (normalize true s).countP isConnective < levels →
      parseAt limit levels s ≠ .error (.depthLimitExceeded cut) := by
  intro levels
  induction levels with
  | zero => exact fun h => absurd h (Nat.not_lt_zero _)
  | succ levels ih =>
    intro s hcount
    refine parseAt_succ_ne_error (Shape.ofChars_ne_depthLimitExceeded _ cut) fun t ht => ?_
    have hlt := ht.countP_isConnective_lt
    refine ih ?_
    rw [ht.isBalanced_and_normalize_eq.2]
    omega

/-! ### All limits -/

/-- A smaller limit cuts the reading of a text off or does nothing. -/
theorem parse_cutAt {n m : Nat} (h : n ≤ m) (text : List Char) :
    CutAt n (parse n text) (parse m text) :=
  parseAt_cutAt (Nat.succ_le_succ h) text

/-- **A formula that is too deep for a limit is cut off at it**, and reported for nothing
else. -/
theorem parse_eq_depthLimitExceeded {n m : Nat} {text : List Char} {f : Formula}
    (h : parse m text = .ok f) (hdepth : n + 1 < f.depth) :
    parse n text = .error (.depthLimitExceeded n) := by
  have hm : f.depth ≤ m + 1 := (parse_eq_ok_iff.mp h).2
  have hle : n ≤ m := by omega
  refine (parse_cutAt hle text).resolve_right fun heq => ?_
  have hn : f.depth ≤ n + 1 := (parse_eq_ok_iff.mp (heq.trans h)).2
  exact absurd hdepth (Nat.not_lt.mpr hn)

/-- **What a limit does to the reading of a text.**  Within the smaller of two limits a text
is cut off, or it is read or rejected as within the greater one.  Within a limit that is no
less than the number of its connectives it is never cut off.  And a formula that is read
within some limit is read within exactly those limits that its depth allows, and cut off
within all others. -/
theorem parse_limit_only_cuts (text : List Char) :
    (∀ n m, n ≤ m →
      parse n text = .error (.depthLimitExceeded n) ∨ parse n text = parse m text) ∧
    (∀ n, (normalize true text).countP isConnective ≤ n →
      ∀ cut, parse n text ≠ .error (.depthLimitExceeded cut)) ∧
    ∀ n m f, parse m text = .ok f →
      (f.depth ≤ n + 1 → parse n text = .ok f) ∧
      (n + 1 < f.depth → parse n text = .error (.depthLimitExceeded n)) := by
  refine ⟨fun n m h => parse_cutAt h text, fun n hcount cut => ?_, fun n m f h => ⟨fun hdepth => ?_,
    parse_eq_depthLimitExceeded h⟩⟩
  · exact parseAt_ne_depthLimitExceeded (Nat.lt_succ_of_le hcount)
  · exact parse_eq_ok_iff.mpr ⟨(parse_eq_ok_iff.mp h).1, hdepth⟩

-- the text below is read by evaluation
set_option maxRecDepth 1000

/-- The formula of `~(p ^ q) > r` has depth 4, so limit 3 is enough and limit 2 is not.  The
text `~(p) ^ ~q`, which is no formula, is cut off before that can be seen within limit 1, is
rejected for its parenthesised atom within limit 2 already, and is cut off within no limit
from 3 on. -/
theorem parse_limit_only_cuts_before_other_fault :
    parse 3 "~(p ^ q) > r".toList
        = .ok (.cond (.neg (.conj (.var "p") (.var "q"))) (.var "r")) ∧
      parse 2 "~(p ^ q) > r".toList = .error (.depthLimitExceeded 2) ∧
      parse 1 "~(p) ^ ~q".toList = .error (.depthLimitExceeded 1) ∧
      parse 9 "~(p) ^ ~q".toList = .error .parenthesizedAtom ∧
      parse 3 "~(p) ^ ~q".toList ≠ .error (.depthLimitExceeded 3) := by
  have hread : parse 9 "~(p ^ q) > r".toList
      = .ok (.cond (.neg (.conj (.var "p") (.var "q"))) (.var "r")) := rfl
  obtain ⟨-, -, hdepth⟩ := parse_limit_only_cuts "~(p ^ q) > r".toList
  obtain ⟨hcut, hfew, -⟩ := parse_limit_only_cuts "~(p) ^ ~q".toList
  have hreject : parse 2 "~(p) ^ ~q".toList = .error .parenthesizedAtom := rfl
  refine ⟨(hdepth 3 9 _ hread).1 (by decide), (hdepth 2 9 _ hread).2 (by decide), rfl, ?_,
    hfew 3 (by decide) 3⟩
  rcases hcut 2 9 (by decide) with h | h
  · rw [hreject] at h
    cases h
  · rw [← h, hreject]

end Sentential
