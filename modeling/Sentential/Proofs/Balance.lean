import Sentential.Reading.Token

/-!
# Balanced texts

A text is balanced in a context of `d` open parentheses if reading it closes exactly
these and its own.  The walks that look for a bracket fault and for the end of the
outer pair both come apart behind a balanced text: what they do with the rest does not
depend on how the text was passed.

## Main definitions

* `balanced d s` — `s` closes `d` open parentheses and its own, and no more.

## Main results

* `bracketFault?_eq_none_iff` — the reader finds no fault exactly in balanced texts.
* `unwrap?_group`, `unwrap?_append` — a balanced text in parentheses is unwrapped,
  and one that goes on behind a balanced part is not.
-/

namespace Sentential

/-- `balanced d s` says that the text `s`, read inside `d` open parentheses, closes
them and its own, and never one that is not open. -/
def balanced (depth : Nat) : List Char → Bool
  | [] => depth == 0
  | c :: s =>
    if c == '(' then balanced (depth + 1) s
    else if c == ')' then
      match depth with
      | 0 => false
      | d + 1 => balanced d s
    else balanced depth s

@[simp] theorem balanced_nil (depth : Nat) : balanced depth [] = (depth == 0) := rfl

@[simp] theorem balanced_open (depth : Nat) (s : List Char) :
    balanced depth ('(' :: s) = balanced (depth + 1) s := rfl

@[simp] theorem balanced_close_zero (s : List Char) : balanced 0 (')' :: s) = false := rfl

@[simp] theorem balanced_close_succ (depth : Nat) (s : List Char) :
    balanced (depth + 1) (')' :: s) = balanced depth s := rfl

theorem balanced_cons_of_ne {c : Char} (hopen : c ≠ '(') (hclose : c ≠ ')') (depth : Nat)
    (s : List Char) : balanced depth (c :: s) = balanced depth s := by
  simp [balanced, hopen, hclose]

@[simp] theorem balanced_symbol_cons (k : Connective) (depth : Nat) (s : List Char) :
    balanced depth (k.symbol :: s) = balanced depth s := by
  rcases k with _ | _ | _ | _ | _ <;> rfl

/-- **The reader finds no bracket fault exactly in balanced texts**, wherever it
starts to count the positions. -/
theorem bracketFault?_eq_none_iff (s : List Char) : ∀ position depth : Nat,
    bracketFault? position depth s = none ↔ balanced depth s = true := by
  induction s with
  | nil => intro position depth; cases depth <;> simp
  | cons c s ih =>
    intro position depth
    by_cases hopen : c = '('
    · subst hopen
      rw [bracketFault?_open, balanced_open, ih]
    by_cases hclose : c = ')'
    · subst hclose
      cases depth with
      | zero => simp
      | succ d => rw [bracketFault?_close_succ, balanced_close_succ, ih]
    · rw [bracketFault?_cons_of_ne hopen hclose, balanced_cons_of_ne hopen hclose, ih]

/-- **What follows a balanced text is balanced or not as if it stood alone**, inside
the `e` parentheses that the text leaves open. -/
theorem balanced_append {s : List Char} : ∀ {d : Nat}, balanced d s = true →
    ∀ (e : Nat) (t : List Char), balanced (d + e) (s ++ t) = balanced e t := by
  induction s with
  | nil =>
    intro d h e t
    have hd : d = 0 := by simpa using h
    rw [hd, Nat.zero_add, List.nil_append]
  | cons c s ih =>
    intro d h e t
    by_cases hopen : c = '('
    · subst hopen
      rw [balanced_open] at h
      rw [List.cons_append, balanced_open, ← ih h e t, Nat.add_right_comm]
    by_cases hclose : c = ')'
    · subst hclose
      cases d with
      | zero => simp at h
      | succ d =>
        rw [balanced_close_succ] at h
        rw [List.cons_append, Nat.add_right_comm, balanced_close_succ, ih h e t]
    · rw [balanced_cons_of_ne hopen hclose] at h
      rw [List.cons_append, balanced_cons_of_ne hopen hclose, ih h e t]

theorem balanced_group {s : List Char} (h : balanced 0 s = true) :
    balanced 0 ('(' :: (s ++ [')'])) = true := by
  rw [balanced_open, Nat.add_comm, balanced_append h 1]
  rfl

theorem balanced_append_symbol {s t : List Char} (hs : balanced 0 s = true)
    (ht : balanced 0 t = true) (k : Connective) : balanced 0 (s ++ k.symbol :: t) = true := by
  calc balanced 0 (s ++ k.symbol :: t)
      = balanced 0 (k.symbol :: t) := by simpa using balanced_append hs 0 (k.symbol :: t)
    _ = true := (balanced_symbol_cons k 0 t).trans ht

theorem balanced_of_plain {s : List Char} (h : ∀ c ∈ s, isSpecial c = false) :
    balanced 0 s = true := by
  induction s with
  | nil => rfl
  | cons c s ih =>
    have hc : isParen c = false := by
      have := h c List.mem_cons_self
      simp only [isSpecial, Bool.or_eq_false_iff] at this
      exact this.2
    simp only [isParen, Bool.or_eq_false_iff, beq_eq_false_iff_ne] at hc
    rw [balanced_cons_of_ne hc.1 hc.2]
    exact ih fun d hd => h d (List.mem_cons_of_mem c hd)

/-! ### The outer pair -/

/-- The parenthesis in front of a balanced text is not closed before the one
behind it. -/
theorem closesEarly_of_balanced {s : List Char} : ∀ {d : Nat}, balanced d s = true →
    closesEarly (d + 1) (s ++ [')']) = false := by
  induction s with
  | nil =>
    intro d h
    have hd : d = 0 := by simpa using h
    subst hd
    rfl
  | cons c s ih =>
    intro d h
    by_cases hopen : c = '('
    · subst hopen
      exact ih (d := d + 1) h
    by_cases hclose : c = ')'
    · subst hclose
      cases d with
      | zero => simp at h
      | succ d => simpa using ih (d := d) h
    · rw [balanced_cons_of_ne hopen hclose] at h
      rw [List.cons_append, closesEarly_cons_of_ne hopen hclose]
      exact ih h

/-- Where a balanced text closes all parentheses and more follows, the first one is
closed early. -/
theorem closesEarly_append {s t : List Char} (ht : t ≠ []) : ∀ {d : Nat},
    balanced (d + 1) s = true → closesEarly (d + 1) (s ++ t) = true := by
  induction s with
  | nil => intro d h; simp at h
  | cons c s ih =>
    intro d h
    by_cases hopen : c = '('
    · subst hopen
      exact ih (d := d + 1) h
    by_cases hclose : c = ')'
    · subst hclose
      cases d with
      | zero => simp [ht]
      | succ d => simpa using ih (d := d) h
    · rw [balanced_cons_of_ne hopen hclose] at h
      rw [List.cons_append, closesEarly_cons_of_ne hopen hclose]
      exact ih h

/-- What is unwrapped stood in parentheses. -/
theorem eq_group_of_unwrap? {s m : List Char} (h : unwrap? s = some m) :
    s = '(' :: (m ++ [')']) := by
  cases s with
  | nil => simp at h
  | cons c s =>
    rw [unwrap?_cons] at h
    split at h
    · rename_i hcond
      simp only [Bool.and_eq_true, beq_iff_eq] at hcond
      obtain ⟨⟨hc, hlast⟩, -⟩ := hcond
      obtain ⟨m', rfl⟩ := List.getLast?_eq_some_iff.mp hlast
      rw [hc, ← Option.some.inj h, List.dropLast_concat]
    · simp at h

/-- **A balanced text in parentheses is unwrapped.** -/
theorem unwrap?_group {s : List Char} (h : balanced 0 s = true) :
    unwrap? ('(' :: (s ++ [')'])) = some s := by
  rw [unwrap?_cons, closesEarly_of_balanced h]
  simp

theorem unwrap_eq_self {s : List Char} (h : unwrap? s = none) : unwrap s = s := by
  rw [unwrap, h, Option.getD_none]

theorem unwrap_group {s : List Char} (h : balanced 0 s = true) :
    unwrap ('(' :: (s ++ [')'])) = s := by
  rw [unwrap, unwrap?_group h, Option.getD_some]

/-- **A text that goes on behind a balanced part is not unwrapped**, since what opens
in front of that part is closed within it. -/
theorem unwrap?_append {s t : List Char} (hs : balanced 0 s = true) (hne : s ≠ []) (ht : t ≠ []) :
    unwrap? (s ++ t) = none := by
  cases s with
  | nil => exact absurd rfl hne
  | cons c s =>
    rw [List.cons_append, unwrap?_cons]
    by_cases hopen : c = '('
    · subst hopen
      rw [closesEarly_append ht (d := 0) hs]
      simp
    · simp [hopen]

theorem unwrap?_symbol_cons (k : Connective) (s : List Char) : unwrap? (k.symbol :: s) = none := by
  rcases k with _ | _ | _ | _ | _ <;> rfl

theorem unwrap?_of_plain {s : List Char} (h : ∀ c ∈ s, isSpecial c = false) : unwrap? s = none := by
  cases hm : unwrap? s with
  | none => rfl
  | some m =>
    have hmem : '(' ∈ s := by rw [eq_group_of_unwrap? hm]; exact List.mem_cons_self
    exact absurd (h '(' hmem) (by decide)

end Sentential
