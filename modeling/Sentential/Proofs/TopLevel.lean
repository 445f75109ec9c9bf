import Sentential.Proofs.Balance

/-!
# The top level of a text

The tokens of a balanced text are cut at a connective exactly where the text falls
into two balanced parts, and the tokens of the parts are those on either side.  So
splitting a list of tokens and joining each side again is the same as splitting the
text, and what stands at the top level of an operand can be told from the tokens of
the whole.

## Main definitions

* `TopLevelLT n s` — all connectives at the top level of `s` are of a level below `n`.

## Main results

* `Token.join_scan` — the tokens of a text join to the text.
* `Token.scan_step` — what a scan does with one character of a balanced text.
* `Token.scan_append_symbol`, `Token.exists_of_scan_eq` — cutting at a connective, from
  the parts to the whole and back.
-/

namespace Sentential

/-- A character that is no parenthesis is the symbol of a connective or plain. -/
theorem exists_symbol_or_plain {c : Char} (hopen : c ≠ '(') (hclose : c ≠ ')') :
    (∃ k : Connective, c = k.symbol) ∨ isSpecial c = false := by
  cases hk : Connective.ofChar? c with
  | some k => exact Or.inl ⟨k, Connective.ofChar?_eq_some_iff.mp hk⟩
  | none => exact Or.inr (by simp [isSpecial, isConnective, isParen, hk, hopen, hclose])

namespace Token

/-! ### Tokens and text -/

theorem join_flush (run : List Char) : join (flush run) = run.reverse := by
  cases run with
  | nil => rfl
  | cons c run => simp [flush, chars]

/-- **The tokens of a text join to the text**, behind the run that was read before. -/
theorem join_scan (s : List Char) : ∀ (d : Nat) (run : List Char),
    join (scan d run s) = run.reverse ++ s := by
  induction s with
  | nil => intro d run; rw [scan_nil, join_flush, List.append_nil]
  | cons c s ih =>
    intro d run
    by_cases hopen : c = '('
    · subst hopen
      cases d with
      | zero => simp [join_flush, ih]
      | succ d => simp [ih]
    by_cases hclose : c = ')'
    · subst hclose
      match d with
      | 0 => simp [scan, ih]
      | 1 => simp [chars, ih]
      | d + 2 => simp [ih]
    cases d with
    | succ d => simp [scan_inside hopen hclose, ih]
    | zero =>
      rcases exists_symbol_or_plain hopen hclose with ⟨k, rfl⟩ | hplain
      · simp [chars, join_flush, ih]
      · simp [scan_plain hplain, ih]

theorem scan_of_plain {s : List Char} (h : ∀ c ∈ s, isSpecial c = false) :
    ∀ run : List Char, scan 0 run s = flush (s.reverse ++ run) := by
  induction s with
  | nil => intro run; rfl
  | cons c s ih =>
    intro run
    rw [scan_plain (h c List.mem_cons_self), ih fun d hd => h d (List.mem_cons_of_mem c hd)]
    simp

/-- A balanced text inside parentheses joins the run, up to the `)` behind it. -/
theorem scan_append_close {s : List Char} : ∀ {d : Nat}, balanced d s = true →
    ∀ run t : List Char, scan (d + 1) run (s ++ ')' :: t)
      = .text (run.reverse ++ (s ++ [')'])) :: scan 0 [] t := by
  induction s with
  | nil =>
    intro d h run t
    have hd : d = 0 := by simpa using h
    subst hd
    simp
  | cons c s ih =>
    intro d h run t
    by_cases hopen : c = '('
    · subst hopen
      rw [List.cons_append, scan_open_succ, ih (d := d + 1) h]
      simp
    by_cases hclose : c = ')'
    · subst hclose
      cases d with
      | zero => simp at h
      | succ d =>
        rw [List.cons_append, scan_close_add_two, ih (d := d) h]
        simp
    · rw [balanced_cons_of_ne hopen hclose] at h
      rw [List.cons_append, scan_inside hopen hclose, ih h]
      simp

theorem scan_group {s : List Char} (h : balanced 0 s = true) :
    scan 0 [] ('(' :: (s ++ [')'])) = [.text ('(' :: (s ++ [')']))] := by
  rw [scan_open_zero, scan_append_close h]
  rfl

/-! ### Cutting at a connective -/

theorem operator_not_mem_flush (k : Connective) (run : List Char) :
    .operator k ∉ flush run := by
  unfold flush
  split <;> simp

/-- **What a scan does with one character of a balanced text.**  A connective outside
parentheses is a token.  Behind any other character the scan goes on at some depth and with
some run, which the rest of the text has no part in, and no connective has become a token. -/
theorem scan_step {d : Nat} {c : Char} {s : List Char} (h : balanced d (c :: s) = true)
    (run : List Char) :
    (∃ k : Connective, d = 0 ∧ c = k.symbol) ∨
      ∃ (pre : List Token) (d' : Nat) (run' : List Char), (∀ k, .operator k ∉ pre) ∧
        (∀ t, balanced d (c :: t) = balanced d' t) ∧
        ∀ t, scan d run (c :: t) = pre ++ scan d' run' t := by
  have hnil : ∀ k, Token.operator k ∉ [] := fun _ => List.not_mem_nil
  by_cases hopen : c = '('
  · subst hopen
    right
    cases d with
    | zero =>
      exact ⟨flush run, 1, ['('], (operator_not_mem_flush · run), fun _ => rfl, fun _ => rfl⟩
    | succ d => exact ⟨[], d + 2, '(' :: run, hnil, fun _ => rfl, fun _ => rfl⟩
  by_cases hclose : c = ')'
  · subst hclose
    right
    match d with
    | 0 => simp at h
    | 1 => exact ⟨[.text (')' :: run).reverse], 0, [], by simp, fun _ => rfl, fun _ => rfl⟩
    | d + 2 => exact ⟨[], d + 1, ')' :: run, hnil, fun _ => rfl, fun _ => rfl⟩
  have hbal := balanced_cons_of_ne hopen hclose
  cases d with
  | succ d => exact Or.inr ⟨[], d + 1, c :: run, hnil, hbal _, scan_inside hopen hclose d run⟩
  | zero =>
    rcases exists_symbol_or_plain hopen hclose with ⟨k, rfl⟩ | hplain
    · exact Or.inl ⟨k, rfl, rfl⟩
    · exact Or.inr ⟨[], 0, c :: run, hnil, hbal _, scan_plain hplain run⟩

/-- **Behind a balanced text, a connective is a token**, and the tokens on either side
are those of the two parts. -/
theorem scan_append_symbol {s : List Char} : ∀ {d : Nat}, balanced d s = true →
    ∀ (run : List Char) (k : Connective) (t : List Char),
      scan d run (s ++ k.symbol :: t) = scan d run s ++ .operator k :: scan 0 [] t := by
  induction s with
  | nil =>
    intro d h run k t
    have hd : d = 0 := by simpa using h
    subst hd
    exact scan_symbol k run t
  | cons c s ih =>
    intro d h run k t
    rw [List.cons_append]
    rcases scan_step h run with ⟨k', rfl, rfl⟩ | ⟨pre, d', run', -, hbal, hscan⟩
    · rw [balanced_symbol_cons] at h
      rw [scan_symbol, scan_symbol, ih h, List.append_assoc, List.cons_append]
    · rw [hbal] at h
      rw [hscan, hscan, ih h, List.append_assoc]

/-- A cut at a connective is behind any tokens that are no connectives. -/
theorem exists_of_append_eq {pre us ts ts' : List Token} {k : Connective}
    (hpre : .operator k ∉ pre) (h : pre ++ us = ts ++ .operator k :: ts') :
    ∃ ts₁, ts = pre ++ ts₁ ∧ us = ts₁ ++ .operator k :: ts' := by
  rcases List.append_eq_append_iff.mp h with ⟨ts₁, hts, hus⟩ | ⟨ts₁, hts, hus⟩
  · exact ⟨ts₁, hts, hus⟩
  · cases ts₁ with
    | nil => exact ⟨[], by simpa using hts.symm, by simpa using hus.symm⟩
    | cons t ts₁ =>
      rw [List.cons_append, List.cons.injEq] at hus
      exact absurd (hts ▸ List.mem_append_right _ (hus.1 ▸ List.mem_cons_self)) hpre

/-- **Where the tokens of a balanced text are cut at a connective, the text falls into
two balanced parts**, and the tokens on either side are those of the parts. -/
theorem exists_of_scan_eq {k : Connective} {ts' : List Token} {s : List Char} :
    ∀ {d : Nat} {run : List Char} {ts : List Token}, balanced d s = true →
      scan d run s = ts ++ .operator k :: ts' →
      ∃ l r, s = l ++ k.symbol :: r ∧ balanced d l = true ∧ balanced 0 r = true ∧
        scan d run l = ts ∧ scan 0 [] r = ts' := by
  induction s with
  | nil =>
    intro d run ts _ h
    refine absurd ?_ (operator_not_mem_flush k run)
    rw [← scan_nil d run, h]
    exact List.mem_append_right _ List.mem_cons_self
  | cons c s ih =>
    intro d run ts hbal h
    rcases scan_step hbal run with ⟨k', rfl, rfl⟩ | ⟨pre, d', run', hpre, hdepth, hscan⟩
    · rw [balanced_symbol_cons] at hbal
      rw [scan_symbol] at h
      obtain ⟨ts₁, rfl, hcut⟩ := exists_of_append_eq (operator_not_mem_flush k run) h
      -- the cut is at this connective or at a later one
      cases ts₁ with
      | nil =>
        simp only [List.nil_append, List.cons.injEq, Token.operator.injEq] at hcut
        obtain ⟨rfl, rfl⟩ := hcut
        exact ⟨[], s, rfl, rfl, hbal, by simp, rfl⟩
      | cons t ts₁ =>
        rw [List.cons_append, List.cons.injEq] at hcut
        obtain ⟨l, r, rfl, hl, hr, hleft, hright⟩ := ih hbal hcut.2
        exact ⟨k'.symbol :: l, r, rfl, by rw [balanced_symbol_cons, hl], hr,
          by rw [scan_symbol, hleft, hcut.1], hright⟩
    · rw [hdepth] at hbal
      rw [hscan] at h
      obtain ⟨ts₁, rfl, hcut⟩ := exists_of_append_eq (hpre k) h
      obtain ⟨l, r, rfl, hl, hr, hleft, hright⟩ := ih hbal hcut
      exact ⟨c :: l, r, rfl, by rw [hdepth, hl], hr, by rw [hscan, hleft], hright⟩

end Token

/-! ### What stands at the top level -/

/-- All connectives at the top level of a text are of a level below `n`. -/
def TopLevelLT (n : Nat) (s : List Char) : Prop := ∀ t ∈ Token.scan 0 [] s, t.level < n

namespace TopLevelLT

variable {n : Nat} {s t : List Char} {k : Connective}

theorem mono {m : Nat} (h : TopLevelLT m s) (hmn : m ≤ n) : TopLevelLT n s :=
  fun u hu => Nat.lt_of_lt_of_le (h u hu) hmn

theorem of_plain (hn : 0 < n) (h : ∀ c ∈ s, isSpecial c = false) : TopLevelLT n s := by
  intro u hu
  rw [Token.scan_of_plain h, Token.flush] at hu
  split at hu
  · simp at hu
  · rw [List.mem_singleton.mp hu]
    exact hn

theorem group (hn : 0 < n) (h : balanced 0 s = true) : TopLevelLT n ('(' :: (s ++ [')'])) := by
  intro u hu
  rw [Token.scan_group h, List.mem_singleton] at hu
  rw [hu]
  exact hn

/-- A connective between two texts, the first of them balanced, stands at the top
level. -/
theorem append_symbol_iff (hs : balanced 0 s = true) :
    TopLevelLT n (s ++ k.symbol :: t) ↔ TopLevelLT n s ∧ k.level < n ∧ TopLevelLT n t := by
  simp only [TopLevelLT, Token.scan_append_symbol hs, List.mem_append, List.mem_cons,
    or_imp, forall_and, forall_eq, Token.level]

/-- So does a connective in front of a text. -/
theorem symbol_cons_iff : TopLevelLT n (k.symbol :: t) ↔ k.level < n ∧ TopLevelLT n t := by
  have h := append_symbol_iff (n := n) (k := k) (t := t) (s := []) rfl
  rw [List.nil_append] at h
  rw [h]
  exact and_iff_right fun u hu => by simp [Token.flush] at hu

/-- A binary connective between texts below a ceiling, and itself below a higher one. -/
theorem append_binary {m : Nat} {op : BinaryOp} (hbal : balanced 0 s = true)
    (hs : TopLevelLT m s) (ht : TopLevelLT m t) (hmn : m ≤ n)
    (hop : (Connective.binary op).level < n) : TopLevelLT n (s ++ op.symbol :: t) :=
  (append_symbol_iff (k := .binary op) hbal).mpr ⟨hs.mono hmn, hop, ht.mono hmn⟩

/-- What the ceiling of a text says about a binary connective at its top level. -/
theorem level_lt_of_append {op : BinaryOp} (hbal : balanced 0 s = true)
    (h : TopLevelLT n (s ++ op.symbol :: t)) : (Connective.binary op).level < n :=
  ((append_symbol_iff (k := .binary op) hbal).mp h).2.1

end TopLevelLT

end Sentential
