import Sentential.Proofs.Grammar

/-!
# Faults in the parentheses of a text

The reader looks for a fault in the parentheses on every level it comes to, in a text from
which a pair of parentheses may have been dropped.  Still it finds one only on the first
level, and where the whole text has it: dropping the outer pair moves no fault, and the
operands of a level that was split are balanced.  The fault itself can be told by
counting, without a walk.

## Main definitions

* `Overclosed`, `IsFirstOverclosed` — the places where more is closed than was open.
* `HasOperand` — the texts that the reader goes on with.

## Main results

* `bracketFault?_eq_extra_iff`, `bracketFault?_eq_missing_iff` — the faults, by counting.
* `bracketFault?_unwrap` — dropping the outer pair keeps the fault.
* `Shape.ofChars_eq_unbalancedParen_iff` — when a level is rejected for its parentheses.
* `HasOperand.parseAt_ne_unbalancedParen` — operands are not.
* `parse_eq_unbalancedParen_iff` — **which texts are rejected for their parentheses**, and
  where.
-/

namespace Sentential

/-! ### Counting -/

/-- In a text that starts inside `depth` open parentheses, more are closed up to and
including the position `i` than have been opened. -/
def Overclosed (depth : Nat) (s : List Char) (i : Nat) : Prop :=
  depth + (s.take (i + 1)).count '(' < (s.take (i + 1)).count ')'

/-- The first position of a text at which more is closed than was open. -/
structure IsFirstOverclosed (depth : Nat) (s : List Char) (i : Nat) : Prop where
  /-- It is a position of the text. -/
  lt_length : i < s.length
  /-- More is closed there than was open. -/
  overclosed : Overclosed depth s i
  /-- At no earlier position that was so. -/
  not_before : ∀ j < i, ¬ Overclosed depth s j

instance (depth : Nat) (s : List Char) (i : Nat) : Decidable (Overclosed depth s i) :=
  inferInstanceAs (Decidable (_ < _))

instance (depth : Nat) (s : List Char) (i : Nat) : Decidable (IsFirstOverclosed depth s i) :=
  decidable_of_iff (i < s.length ∧ Overclosed depth s i ∧ ∀ j < i, ¬ Overclosed depth s j)
    ⟨fun ⟨hlt, hover, hbefore⟩ => ⟨hlt, hover, hbefore⟩,
      fun ⟨hlt, hover, hbefore⟩ => ⟨hlt, hover, hbefore⟩⟩

section Overclosed

variable {depth i : Nat} {c : Char} {s : List Char}

/-- A single character closes too much only if it is a `)` and nothing is open. -/
theorem overclosed_zero_iff : Overclosed depth (c :: s) 0 ↔ depth = 0 ∧ c = ')' := by
  by_cases hc : c = ')'
  · subst hc
    simp [Overclosed]
  · simp [Overclosed, hc]

/-- **What a character does to the walk and to the counts.**  A `)` with nothing open ends
the walk.  Behind any other character it goes on inside some number of open parentheses, and
this number stands for the character in all counts. -/
theorem bracketFault?_step (depth : Nat) (c : Char) (s : List Char) :
    (depth = 0 ∧ c = ')') ∨
      ¬ Overclosed depth (c :: s) 0 ∧ ∃ depth',
        (∀ position, bracketFault? position depth (c :: s)
          = bracketFault? (position + 1) depth' s) ∧
        (∀ j, Overclosed depth (c :: s) (j + 1) ↔ Overclosed depth' s j) ∧
        ((c :: s).count ')' < depth + (c :: s).count '(' ↔ s.count ')' < depth' + s.count '(') := by
  by_cases hopen : c = '('
  · subst hopen
    have hne : '(' ≠ ')' := by decide
    refine .inr ⟨by simp [overclosed_zero_iff], depth + 1, fun _ => rfl, fun j => ?_, ?_⟩
    · simp only [Overclosed, List.take_succ_cons, List.count_cons_self, List.count_cons_of_ne hne]
      omega
    · rw [List.count_cons_self, List.count_cons_of_ne hne]
      omega
  by_cases hclose : c = ')'
  · subst hclose
    have hne : ')' ≠ '(' := by decide
    cases depth with
    | zero => exact .inl ⟨rfl, rfl⟩
    | succ d =>
      refine .inr ⟨by simp [overclosed_zero_iff], d, fun _ => rfl, fun j => ?_, ?_⟩
      · simp only [Overclosed, List.take_succ_cons, List.count_cons_self,
          List.count_cons_of_ne hne]
        omega
      · rw [List.count_cons_self, List.count_cons_of_ne hne]
        omega
  · refine .inr ⟨by simp [overclosed_zero_iff, hclose], depth, fun position => ?_, fun j => ?_, ?_⟩
    · exact bracketFault?_cons_of_ne hopen hclose position depth s
    · simp only [Overclosed, List.take_succ_cons, List.count_cons_of_ne hopen,
        List.count_cons_of_ne hclose]
    · rw [List.count_cons_of_ne hopen, List.count_cons_of_ne hclose]

/-- If a character closes nothing too much, the first position at which this happens is one of
the text behind it. -/
theorem isFirstOverclosed_cons_iff {depth' : Nat} (hzero : ¬ Overclosed depth (c :: s) 0)
    (hsucc : ∀ j, Overclosed depth (c :: s) (j + 1) ↔ Overclosed depth' s j) :
    IsFirstOverclosed depth (c :: s) i ↔ ∃ j, i = j + 1 ∧ IsFirstOverclosed depth' s j := by
  constructor
  · rintro ⟨hlt, hover, hbefore⟩
    cases i with
    | zero => exact absurd hover hzero
    | succ j =>
      refine ⟨j, rfl, Nat.lt_of_succ_lt_succ hlt, (hsucc j).mp hover, fun k hk => ?_⟩
      rw [← hsucc]
      exact hbefore (k + 1) (Nat.succ_lt_succ hk)
  · rintro ⟨j, rfl, hlt, hover, hbefore⟩
    refine ⟨Nat.succ_lt_succ hlt, (hsucc j).mpr hover, fun k hk => ?_⟩
    cases k with
    | zero => exact hzero
    | succ k =>
      rw [hsucc]
      exact hbefore k (Nat.lt_of_succ_lt_succ hk)

/-- A text that closes too much at once does so first at once. -/
theorem isFirstOverclosed_close_iff : IsFirstOverclosed 0 (')' :: s) i ↔ i = 0 := by
  have hover : Overclosed 0 (')' :: s) 0 := overclosed_zero_iff.mpr ⟨rfl, rfl⟩
  constructor
  · rintro ⟨-, -, hbefore⟩
    exact Nat.eq_zero_of_not_pos fun hi => hbefore 0 hi hover
  · rintro rfl
    exact ⟨Nat.succ_pos _, hover, fun j hj => absurd hj (Nat.not_lt_zero j)⟩

end Overclosed

/-- **An extra `)` is reported where for the first time more is closed than was open**,
counted from where the text starts. -/
theorem bracketFault?_eq_extra_iff (s : List Char) : ∀ position depth place : Nat,
    bracketFault? position depth s = some (.extra place) ↔
      ∃ i, place = position + i ∧ IsFirstOverclosed depth s i := by
  induction s with
  | nil =>
    intro position depth place
    constructor
    · intro h
      cases depth <;> simp at h
    · rintro ⟨i, -, hlt, -⟩
      exact absurd hlt (Nat.not_lt_zero i)
  | cons c s ih =>
    intro position depth place
    rcases bracketFault?_step depth c s with ⟨rfl, rfl⟩ | ⟨hzero, depth', hwalk, hsucc, -⟩
    · simp only [bracketFault?_close_zero, isFirstOverclosed_close_iff, Option.some.injEq,
        BracketFault.extra.injEq, exists_eq_right, Nat.add_zero, eq_comm]
    · rw [hwalk, ih]
      simp only [isFirstOverclosed_cons_iff hzero hsucc]
      constructor
      · rintro ⟨j, rfl, hfirst⟩
        exact ⟨j + 1, Nat.add_right_comm position 1 j, j, rfl, hfirst⟩
      · rintro ⟨_, rfl, j, rfl, hfirst⟩
        exact ⟨j, (Nat.add_right_comm position 1 j).symm, hfirst⟩

/-- **A `)` is reported to be missing if nowhere more is closed than was open**, and less at
the end. -/
theorem bracketFault?_eq_missing_iff (s : List Char) : ∀ position depth : Nat,
    bracketFault? position depth s = some .missing ↔
      (∀ i < s.length, ¬ Overclosed depth s i) ∧ s.count ')' < depth + s.count '(' := by
  induction s with
  | nil => intro position depth; cases depth <;> simp
  | cons c s ih =>
    intro position depth
    rw [List.length_cons, Nat.forall_lt_succ_left]
    rcases bracketFault?_step depth c s with ⟨rfl, rfl⟩ | ⟨hzero, depth', hwalk, hsucc, hcount⟩
    · have hover : Overclosed 0 (')' :: s) 0 := overclosed_zero_iff.mpr ⟨rfl, rfl⟩
      simp [hover]
    · simp only [hwalk, ih, hcount, hsucc, hzero, not_false_eq_true, true_and]

/-! ### The outer pair -/

/-- A walk through what stands behind an opening parenthesis that is not closed early finds the
same with and without the `)` at the end, and no `)` that is extra. -/
theorem bracketFault?_append_close {s : List Char} : ∀ {d : Nat},
    closesEarly (d + 1) (s ++ [')']) = false → ∀ position position' : Nat,
      bracketFault? position (d + 1) (s ++ [')']) = bracketFault? position' d s := by
  induction s with
  | nil => intro d _ position position'; rfl
  | cons c s ih =>
    intro d h position position'
    rw [List.cons_append] at h ⊢
    by_cases hopen : c = '('
    · subst hopen
      exact ih (d := d + 1) h _ _
    by_cases hclose : c = ')'
    · subst hclose
      cases d with
      | zero => simp at h
      | succ d =>
        rw [closesEarly_close, Bool.or_eq_false_iff] at h
        exact ih (d := d) h.2 _ _
    · rw [closesEarly_cons_of_ne hopen hclose] at h
      rw [bracketFault?_cons_of_ne hopen hclose, bracketFault?_cons_of_ne hopen hclose]
      exact ih h _ _

theorem closesEarly_of_unwrap? {s m : List Char} (h : unwrap? s = some m) :
    closesEarly 1 (m ++ [')']) = false := by
  rw [eq_group_of_unwrap? h, unwrap?_cons] at h
  split at h
  · rename_i hcond
    simp only [Bool.and_eq_true, Bool.not_eq_true'] at hcond
    exact hcond.2
  · simp at h

/-- **Dropping the outer pair keeps the fault**, with its position. -/
theorem bracketFault?_unwrap (s : List Char) :
    bracketFault? 0 0 (unwrap s) = bracketFault? 0 0 s := by
  unfold unwrap
  cases h : unwrap? s with
  | none => rfl
  | some m =>
    rw [Option.getD_some, eq_group_of_unwrap? h, bracketFault?_open]
    exact (bracketFault?_append_close (closesEarly_of_unwrap? h) _ _).symm

/-- Dropping the outer pair drops no plain character. -/
theorem exists_plain_unwrap_iff {s : List Char} :
    (∃ c ∈ unwrap s, isSpecial c = false) ↔ ∃ c ∈ s, isSpecial c = false := by
  constructor
  · rintro ⟨c, hc, hplain⟩
    exact ⟨c, (wrapped_unwrap s).subset hc, hplain⟩
  · rintro ⟨c, hc, hplain⟩
    refine ⟨c, ?_, hplain⟩
    have hopen : c ≠ '(' := by rintro rfl; exact absurd hplain (by decide)
    have hclose : c ≠ ')' := by rintro rfl; exact absurd hplain (by decide)
    have hwrapped := wrapped_unwrap s
    generalize unwrap s = u at hwrapped ⊢
    cases hwrapped with
    | bare => exact hc
    | group => simpa [hopen, hclose] using hc

/-! ### One level -/

/-- A text of plain characters has no fault. -/
theorem exists_special_of_bracketFault? {s : List Char} {fault : BracketFault}
    {position : Nat} (h : bracketFault? position 0 s = some fault) :
    ∃ c ∈ s, isSpecial c = true := by
  cases hany : s.any isSpecial with
  | true => exact List.any_eq_true.mp hany
  | false =>
    have hbal : balanced 0 s = true := balanced_of_plain fun c hc => by
      simpa using List.any_eq_false.mp hany c hc
    rw [(bracketFault?_eq_none_iff s position 0).mpr hbal] at h
    cases h

namespace Shape

theorem ofTokens_ne_unbalancedParen (tokens : List Token) (fault : BracketFault) :
    ofTokens tokens ≠ .error (.unbalancedParen fault) := by
  intro h
  rcases eq_of_ofTokens_error h with he | he | ⟨op, he⟩ <;> cases he

/-- **A level is rejected for its parentheses exactly if it has a plain character and its
parentheses have that fault.** -/
theorem ofChars_eq_unbalancedParen_iff {s : List Char} {fault : BracketFault} :
    ofChars s = .error (.unbalancedParen fault) ↔
      (∃ c ∈ s, isSpecial c = false) ∧ bracketFault? 0 0 s = some fault := by
  rw [← exists_plain_unwrap_iff, ← bracketFault?_unwrap]
  constructor
  · intro h
    rw [ofChars] at h
    split at h
    · simp at h
    split at h
    · simp at h
    rename_i hall
    split at h
    · refine ⟨by simpa using hall, ?_⟩
      rw [Token.tokenize_eq] at h
      cases hfault : bracketFault? 0 0 (unwrap s) with
      | some fault' => simpa [hfault] using h
      | none => exact absurd (by simpa [hfault] using h) (ofTokens_ne_unbalancedParen _ fault)
    · split at h <;> simp at h
  · rintro ⟨hplain, hfault⟩
    have hspecial : ∃ c ∈ unwrap s, isSpecial c = true := exists_special_of_bracketFault? hfault
    rw [ofChars_of_mixed hplain hspecial, Token.tokenize_eq, hfault]
    rfl

/-- The texts of the operands of a level. -/
def operands : Shape → List (List Char)
  | .atom _ => []
  | .negation operand => [operand]
  | .binary _ left right => [left, right]

end Shape

/-! ### All levels -/

/-- To read the text `s`, the reader goes on with the text `t`, unless it fails before. -/
def HasOperand (s t : List Char) : Prop :=
  ∃ shape, Shape.ofChars (normalize true s) = .ok shape ∧ t ∈ shape.operands

namespace HasOperand

variable {s t : List Char}

/-- **Operands are balanced**, and normalised already. -/
theorem isBalanced_and_normalize_eq (h : HasOperand s t) :
    balanced 0 t = true ∧ normalize true t = t := by
  obtain ⟨shape, hshape, ht⟩ := h
  have hsettled := Shape.forall_mem_operand (s := normalize true s) (p := (isSettled · = true))
    fun _ => isSettled_of_mem_normalize
  rcases Shape.ofChars_eq_ok hshape with ⟨-, -, rfl⟩ | ⟨hbal, htokens⟩
  · simp [Shape.operands] at ht
  cases shape with
  | atom f => simp [Shape.operands] at ht
  | negation operand =>
    obtain rfl : t = operand := by simpa [Shape.operands] using ht
    obtain ⟨hu, -⟩ := Shape.eq_of_ofTokens_negation hbal htokens
    rw [hu, balanced_symbol_cons] at hbal
    exact ⟨hbal, normalize_eq_self (hsettled.1 hshape)⟩
  | binary op left right =>
    obtain ⟨hu, hleft, -, -⟩ := Shape.eq_of_ofTokens_binary hbal htokens
    have hright : balanced 0 right = true := by
      rw [hu, ← Nat.zero_add 0, balanced_append hleft] at hbal
      exact (balanced_symbol_cons (.binary op) 0 right).symm.trans hbal
    obtain ⟨hsl, hsr⟩ := hsettled.2 hshape
    simp only [Shape.operands, List.mem_cons, List.not_mem_nil, or_false] at ht
    rcases ht with rfl | rfl
    · exact ⟨hleft, normalize_eq_self hsl⟩
    · exact ⟨hright, normalize_eq_self hsr⟩

end HasOperand

/-- **A text is rejected for a cause that its level or one of its operands is rejected
for.** -/
theorem parseAt_succ_ne_error {limit levels : Nat} {s : List Char} {e : ParseError}
    (hlevel : Shape.ofChars (normalize true s) ≠ .error e)
    (hoperands : ∀ t, HasOperand s t → parseAt limit levels t ≠ .error e) :
    parseAt limit (levels + 1) s ≠ .error e := by
  cases hshape : Shape.ofChars (normalize true s) with
  | error e' =>
    rw [parseAt_of_error hshape]
    rintro he
    injection he with he
    exact hlevel (he ▸ hshape)
  | ok shape =>
    have hall : ∀ t ∈ shape.operands, parseAt limit levels t ≠ .error e := fun t ht =>
      hoperands t ⟨shape, hshape, ht⟩
    cases shape with
    | atom f => simp [parseAt_of_atom hshape]
    | negation operand =>
      have ha : parseAt limit levels operand ≠ .error e := hall operand (by simp [Shape.operands])
      rw [parseAt_of_negation hshape]
      cases hparse : parseAt limit levels operand with
      | error e' =>
        rw [hparse] at ha
        exact ha
      | ok f => simp [Except.map]
    | binary op left right =>
      have ha : parseAt limit levels left ≠ .error e := hall left (by simp [Shape.operands])
      have hb : parseAt limit levels right ≠ .error e := hall right (by simp [Shape.operands])
      rw [parseAt_of_binary hshape]
      -- the right operand is read only if the left one was
      cases hleft : parseAt limit levels left with
      | error e' =>
        rw [hleft] at ha
        exact fun he => ha (congrArg Except.error (Except.error.inj he))
      | ok f =>
        cases hright : parseAt limit levels right with
        | error e' =>
          rw [hright] at hb
          exact fun he => hb (congrArg Except.error (Except.error.inj he))
        | ok g => simp [Except.bind, Except.map]

/-- **A balanced text is not rejected for its parentheses**, on whatever level it is read. -/
theorem parseAt_ne_unbalancedParen {limit : Nat} {fault : BracketFault} : ∀ (levels : Nat)
    {s : List Char}, balanced 0 (normalize true s) = true →
      parseAt limit levels s ≠ .error (.unbalancedParen fault) := by
  intro levels
  induction levels with
  | zero => intro s _; simp
  | succ levels ih =>
    intro s hbal
    refine parseAt_succ_ne_error ?_ fun t ht => ?_
    · rw [Ne, Shape.ofChars_eq_unbalancedParen_iff,
        (bracketFault?_eq_none_iff _ 0 0).mpr hbal]
      simp
    · obtain ⟨htbal, htnorm⟩ := ht.isBalanced_and_normalize_eq
      exact ih (by rw [htnorm, htbal])

/-- **Operands are never rejected for their parentheses.** -/
theorem HasOperand.parseAt_ne_unbalancedParen {s t : List Char} (h : HasOperand s t)
    (limit levels : Nat) (fault : BracketFault) :
    parseAt limit levels t ≠ .error (.unbalancedParen fault) := by
  obtain ⟨hbal, hnorm⟩ := h.isBalanced_and_normalize_eq
  exact Sentential.parseAt_ne_unbalancedParen levels (by rw [hnorm, hbal])

/-- A text is rejected for its parentheses exactly if its first level is. -/
theorem parse_eq_unbalancedParen_iff_bracketFault? {limit : Nat} {text : List Char}
    {fault : BracketFault} : parse limit text = .error (.unbalancedParen fault) ↔
      (∃ c ∈ normalize true text, isSpecial c = false) ∧
        bracketFault? 0 0 (normalize true text) = some fault := by
  rw [← Shape.ofChars_eq_unbalancedParen_iff]
  refine ⟨fun h => Classical.byContradiction fun hlevel => ?_,
    fun h => parseAt_of_error h limit limit⟩
  exact parseAt_succ_ne_error hlevel
    (fun t ht => ht.parseAt_ne_unbalancedParen limit limit fault) h

/-- **Which texts are rejected for their parentheses.**  Within any limit, these are the
texts with a plain character in which somewhere more is closed than was open, or less at the
end; what else is wrong with them does not matter.  An extra `)` is reported at its position
in the normalised text, where for the first time more is closed than was open.  And no
operand, on whatever level it is read, is rejected for its parentheses. -/
theorem parse_eq_unbalancedParen_iff (limit : Nat) (text : List Char) :
    (∀ i, parse limit text = .error (.unbalancedParen (.extra i)) ↔
      (∃ c ∈ normalize true text, isSpecial c = false) ∧
        IsFirstOverclosed 0 (normalize true text) i) ∧
    (parse limit text = .error (.unbalancedParen .missing) ↔
      (∃ c ∈ normalize true text, isSpecial c = false) ∧
        (∀ i < (normalize true text).length, ¬ Overclosed 0 (normalize true text) i) ∧
        (normalize true text).count ')' < (normalize true text).count '(') ∧
    ∀ (s t : List Char) (levels : Nat) (fault : BracketFault), HasOperand s t →
      parseAt limit levels t ≠ .error (.unbalancedParen fault) := by
  refine ⟨fun i => ?_, ?_, fun _ _ levels fault h =>
    h.parseAt_ne_unbalancedParen limit levels fault⟩
  · rw [parse_eq_unbalancedParen_iff_bracketFault?, bracketFault?_eq_extra_iff]
    simp only [Nat.zero_add, exists_eq_left']
  · rw [parse_eq_unbalancedParen_iff_bracketFault?, bracketFault?_eq_missing_iff, Nat.zero_add]

/-- In `p > (q ^ r)) V ~` the last `)` is extra, at position 7 of the normalised text, although
the `⋁` has no right side.  In `((p ^ q)`, from which the outer pair is dropped, a `)` is
missing.  The operand of `~(p)` is rejected, but not for its parentheses. -/
theorem parse_eq_unbalancedParen_iff_other_faults :
    parse 0 "p > (q ^ r)) V ~".toList = .error (.unbalancedParen (.extra 7)) ∧
      parse 3 "((p ^ q)".toList = .error (.unbalancedParen .missing) ∧
      HasOperand "~(p)".toList "(p)".toList ∧
      parseAt 3 2 "(p)".toList = .error .parenthesizedAtom ∧
      parseAt 3 2 "(p)".toList ≠ .error (.unbalancedParen .missing) := by
  have hextra : normalize true "p > (q ^ r)) V ~".toList = "p→(q∧r))⋁¬".toList := rfl
  have hmissing : normalize true "((p ^ q)".toList = "((p∧q)".toList := rfl
  have hoperand : HasOperand "~(p)".toList "(p)".toList := ⟨_, rfl, by decide⟩
  refine ⟨?_, ?_, hoperand, rfl, ?_⟩
  · refine ((parse_eq_unbalancedParen_iff 0 _).1 7).mpr ⟨⟨'p', ?_, by decide⟩, ?_⟩
    · rw [hextra]; decide
    · rw [hextra]; decide
  · refine (parse_eq_unbalancedParen_iff 3 _).2.1.mpr ⟨⟨'p', ?_, by decide⟩, ?_, ?_⟩
    · rw [hmissing]; decide
    · rw [hmissing]; decide
    · rw [hmissing]; decide
  · exact (parse_eq_unbalancedParen_iff 3 []).2.2 _ _ 2 .missing hoperand

end Sentential
