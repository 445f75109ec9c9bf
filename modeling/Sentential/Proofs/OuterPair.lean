import Sentential.Proofs.OneScan

/-!
# The outer pair of parentheses

A text that is read is a run of plain characters, or a compound, or a compound in parentheses,
and it can be told from the text which of them it is: only the last is unwrapped, and what is
inside is not unwrapped again.  So a text is displayed without its outer pair and stands for the
same formula.

For the same reason a pair more around a text is tolerated once.  A compound takes it, a run of
plain characters does not as it is an atom, and a compound that has its pair already would have
two.

## Main results

* `Derives.whole_cases` — the three kinds of texts that stand for a formula.
* `Derives.whole_unwrap` — a text without its outer pair stands for the same formula.
* `Shape.ofChars_group_group` — doubled parentheses are rejected.
* `parse_displayForm` — **the displayed text stands for the same formula**, and is displayed as
  it is.
* `parse_group` — **one pair of parentheses is tolerated.**
-/

namespace Sentential

/-! ### Unwrapping -/

namespace Derives

variable {s : List Char} {f : Formula}

/-- A compound is not unwrapped. -/
theorem unwrap?_eq_none (h : Derives .compound s f) : unwrap? s = none := by
  obtain ⟨-, -, -, hbare, -⟩ := h.exists_shape_of_compound
  exact hbare

theorem isAtom_eq_false (h : Derives .compound s f) : f.isAtom = false := by
  cases h <;> rfl

/-- **A text that stands for a formula** is a run of plain characters, which stands for an atom,
or a compound, or a compound in parentheses. -/
theorem whole_cases (h : Derives .whole s f) :
    (f.isAtom = true ∧ ∀ c ∈ s, isSpecial c = false) ∨ Derives .compound s f ∨
      ∃ m, Derives .compound m f ∧ s = '(' :: (m ++ [')']) := by
  cases h with
  | wholeCompound h => exact .inr (.inl h)
  | wholeTight h =>
    cases h with
    | letterT => exact .inl ⟨rfl, List.forall_mem_singleton.mpr (by decide)⟩
    | letterF => exact .inl ⟨rfl, List.forall_mem_singleton.mpr (by decide)⟩
    | name _ hplain => exact .inl ⟨rfl, hplain⟩
    | neg h => exact .inr (.inl (.compoundNeg h))
    | group h => exact .inr (.inr ⟨_, h, rfl⟩)

/-- **A text without its outer pair stands for the same formula**, and has no other outer
pair. -/
theorem whole_unwrap (h : Derives .whole s f) :
    Derives .whole (unwrap s) f ∧ unwrap? (unwrap s) = none := by
  have hself : unwrap? s = none → Derives .whole (unwrap s) f ∧ unwrap? (unwrap s) = none :=
    fun hnone => by rw [unwrap_eq_self hnone]; exact ⟨h, hnone⟩
  rcases h.whole_cases with ⟨-, hplain⟩ | hbare | ⟨m, hm, rfl⟩
  · exact hself (unwrap?_of_plain hplain)
  · exact hself hbare.unwrap?_eq_none
  · rw [unwrap_group hm.isBalanced]
    exact ⟨.wholeCompound hm, hm.unwrap?_eq_none⟩

end Derives

/-! ### Display -/

/-- A displayed text is normalised. -/
theorem normalize_displayForm (s : List Char) :
    normalize true (displayForm s) = displayForm s :=
  normalize_eq_self fun _ hc => isSettled_of_mem_normalize ((wrapped_unwrap _).subset hc)

/-- **The displayed text stands for the same formula.**  If a text is read within some limit,
then what is displayed for it is read as the same formula within the same limit, and is
displayed as it is. -/
theorem parse_displayForm {limit : Nat} {text : List Char} {f : Formula}
    (h : parse limit text = .ok f) :
    parse limit (displayForm text) = .ok f ∧
      displayForm (displayForm text) = displayForm text := by
  obtain ⟨hderives, hdepth⟩ := parse_eq_ok_iff.mp h
  obtain ⟨hinner, hbare⟩ := hderives.whole_unwrap
  constructor
  · rw [parse_eq_ok_iff, normalize_displayForm]
    exact ⟨hinner, hdepth⟩
  · calc displayForm (displayForm text)
        = unwrap (normalize true (displayForm text)) := rfl
      _ = unwrap (displayForm text) := by rw [normalize_displayForm]
      _ = displayForm text := unwrap_eq_self hbare

/-- The text `((p ^ q) V (r ^ s))` is displayed as `(p∧q)⋁(r∧s)`, which begins and ends with a
parenthesis and is still displayed as it is.  The text `((p ^ q))` is not read, and what is
displayed for it is. -/
theorem parse_displayForm_inner_parens :
    displayForm "((p ^ q) V (r ^ s))".toList = "(p∧q)⋁(r∧s)".toList ∧
      parse 2 "((p ^ q) V (r ^ s))".toList
        = .ok (.disj (.conj (.var "p") (.var "q")) (.conj (.var "r") (.var "s"))) ∧
      parse 2 "(p∧q)⋁(r∧s)".toList
        = .ok (.disj (.conj (.var "p") (.var "q")) (.conj (.var "r") (.var "s"))) ∧
      displayForm "(p∧q)⋁(r∧s)".toList = "(p∧q)⋁(r∧s)".toList ∧
      parse 2 "((p ^ q))".toList = .error .unrecognizedForm ∧
      parse 2 (displayForm "((p ^ q))".toList) = .ok (.conj (.var "p") (.var "q")) := by
  have hform : displayForm "((p ^ q) V (r ^ s))".toList = "(p∧q)⋁(r∧s)".toList := by decide
  have hread : parse 2 "((p ^ q) V (r ^ s))".toList
      = .ok (.disj (.conj (.var "p") (.var "q")) (.conj (.var "r") (.var "s"))) := rfl
  obtain ⟨hsame, hagain⟩ := parse_displayForm hread
  rw [hform] at hsame hagain
  exact ⟨hform, hread, hsame, hagain, rfl, rfl⟩

/-! ### Parentheses around a text -/

/-- Parentheses around a text stay around it when it is normalised. -/
theorem normalize_group (strip : Bool) (s : List Char) :
    normalize strip ('(' :: (s ++ [')'])) = '(' :: (normalize strip s ++ [')']) := by
  have hopen : normalize strip ['('] = ['('] := by cases strip <;> decide
  have hclose : normalize strip [')'] = [')'] := by cases strip <;> decide
  rw [← List.singleton_append, normalize_append (by simp), normalize_append (by simp), hopen,
    hclose, List.singleton_append]

/-- **Nothing takes two pairs of parentheses**: of a text in two pairs one is dropped, and the
other makes a single token of it. -/
theorem Shape.ofChars_group_group {s : List Char} (hbal : balanced 0 s = true)
    (hplain : ∃ c ∈ s, isSpecial c = false) :
    ofChars ('(' :: ('(' :: (s ++ [')']) ++ [')'])) = .error .unrecognizedForm := by
  have hunwrap : unwrap ('(' :: ('(' :: (s ++ [')']) ++ [')'])) = '(' :: (s ++ [')']) :=
    unwrap_group (balanced_group hbal)
  obtain ⟨c, hc, hcplain⟩ := hplain
  rw [ofChars_of_balanced, hunwrap, Token.scan_group hbal]
  · rfl
  · rw [hunwrap]
    exact balanced_group hbal
  · rw [hunwrap]
    exact ⟨c, by simp [hc], hcplain⟩
  · rw [hunwrap]
    exact ⟨'(', List.mem_cons_self, by decide⟩

/-- **One pair of parentheses is tolerated.**  If a text is read as a formula within some limit,
then with a pair of parentheses around it, and within the same limit, it is rejected for a
parenthesised atom if the formula is one, it is rejected for doubled parentheses if it has an
outer pair already, and else it is read as the same formula.  With two pairs around it it is
rejected in any case. -/
theorem parse_group {limit : Nat} {text : List Char} {f : Formula}
    (h : parse limit text = .ok f) :
    (f.isAtom = true → parse limit ('(' :: (text ++ [')'])) = .error .parenthesizedAtom) ∧
    ((unwrap? (normalize true text)).isSome = true →
      parse limit ('(' :: (text ++ [')'])) = .error .unrecognizedForm) ∧
    (f.isAtom = false → unwrap? (normalize true text) = none →
      parse limit ('(' :: (text ++ [')'])) = .ok f) ∧
    parse limit ('(' :: ('(' :: (text ++ [')']) ++ [')'])) = .error .unrecognizedForm := by
  obtain ⟨hderives, hdepth⟩ := parse_eq_ok_iff.mp h
  have hreject : ∀ {s : List Char} {e : ParseError}, Shape.ofChars (normalize true s) = .error e →
      parse limit s = .error e := fun he => parseAt_of_error he limit limit
  refine ⟨fun hatom => hreject ?_, fun hsome => hreject ?_, fun hatom hnone => ?_, hreject ?_⟩
  · rw [normalize_group]
    rcases hderives.whole_cases with ⟨-, hplain⟩ | hbare | ⟨m, hm, -⟩
    · exact Shape.ofChars_group_of_plain hderives.ne_nil hplain
    · exact absurd hatom (by rw [hbare.isAtom_eq_false]; decide)
    · exact absurd hatom (by rw [hm.isAtom_eq_false]; decide)
  · rw [normalize_group]
    rcases hderives.whole_cases with ⟨-, hplain⟩ | hbare | ⟨m, hm, heq⟩
    · exact absurd hsome (by rw [unwrap?_of_plain hplain]; decide)
    · exact absurd hsome (by rw [hbare.unwrap?_eq_none]; decide)
    · rw [heq]
      exact Shape.ofChars_group_group hm.isBalanced hm.exists_plain
  · rw [parse_eq_ok_iff, normalize_group]
    rcases hderives.whole_cases with ⟨hf, -⟩ | hbare | ⟨m, hm, heq⟩
    · exact absurd hf (by rw [hatom]; decide)
    · exact ⟨.wholeTight (.group hbare), hdepth⟩
    · rw [heq, unwrap?_group hm.isBalanced] at hnone
      cases hnone
  · rw [normalize_group, normalize_group]
    exact Shape.ofChars_group_group hderives.isBalanced hderives.exists_plain

/-- The text `(p ^ q) V (r ^ s)` takes a pair of parentheses, although it begins and ends with
one; it does not take two.  The text `(p > q)` has its pair and the text `p` is an atom, so
neither takes one. -/
theorem parse_group_inner_parens :
    parse 2 "(p ^ q) V (r ^ s)".toList
        = .ok (.disj (.conj (.var "p") (.var "q")) (.conj (.var "r") (.var "s"))) ∧
      parse 2 "((p ^ q) V (r ^ s))".toList
        = .ok (.disj (.conj (.var "p") (.var "q")) (.conj (.var "r") (.var "s"))) ∧
      parse 2 "(((p ^ q) V (r ^ s)))".toList = .error .unrecognizedForm ∧
      parse 2 "(p > q)".toList = .ok (.cond (.var "p") (.var "q")) ∧
      parse 2 "((p > q))".toList = .error .unrecognizedForm ∧
      parse 2 "p".toList = .ok (.var "p") ∧
      parse 2 "(p)".toList = .error .parenthesizedAtom := by
  have hbare : parse 2 "(p ^ q) V (r ^ s)".toList
      = .ok (.disj (.conj (.var "p") (.var "q")) (.conj (.var "r") (.var "s"))) := rfl
  have hpair : parse 2 "(p > q)".toList = .ok (.cond (.var "p") (.var "q")) := rfl
  have hatom : parse 2 "p".toList = .ok (.var "p") := rfl
  obtain ⟨-, -, hsame, htwice⟩ := parse_group hbare
  exact ⟨hbare, hsame rfl (by decide), htwice, hpair, (parse_group hpair).2.1 (by decide), hatom,
    (parse_group hatom).1 rfl⟩

end Sentential
