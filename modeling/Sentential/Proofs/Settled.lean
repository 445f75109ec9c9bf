import Sentential.Text.Shorthand

/-!
# What normalising leaves alone

A character is *settled* if normalising a text with the white space dropped can
neither rewrite nor drop it.  Only settled characters are left after one pass, so a
second pass has nothing to do, on the whole text or on any part of it.  The `<` is
settled although it can begin a `<>`, since the `>` that would have to follow it is
not.

## Main definitions

* `isSettled` — whether a character is left alone.

## Main results

* `isSettled_of_mem_normalize` — a normalised text has settled characters only.
* `normalize_of_forall_isBlank` — of a blank text nothing is left.
* `normalize_eq_self` — a text of settled characters is normalised already.
* `normalize_normalize` — normalising twice is normalising once.
-/

namespace Sentential

/-- Whether a character is left alone by normalising: it is neither white space nor
one of the single characters that stand for a connective. -/
def isSettled (c : Char) : Bool :=
  !(isBlank c || c == '>' || c == '^' || c == 'V' || c == '~')

theorem isSettled_iff {c : Char} :
    isSettled c = true ↔ isBlank c = false ∧ c ≠ '>' ∧ c ≠ '^' ∧ c ≠ 'V' ∧ c ≠ '~' := by
  simp [isSettled, and_assoc]

@[simp] theorem isSettled_symbol (k : Connective) : isSettled k.symbol = true := by
  rcases k with _ | _ | _ | _ | _ <;> decide

/-! ### One replacement pass -/

/-- After the pass that replaces `a`, a character is the symbol written for it, or it
was there before and is not `a`. -/
theorem mem_replaceChar {a symbol c : Char} {s : List Char} (h : c ∈ replaceChar a symbol s) :
    c = symbol ∨ (c ∈ s ∧ c ≠ a) := by
  obtain ⟨d, hd, rfl⟩ := List.mem_map.mp h
  by_cases hda : d = a
  · exact Or.inl (by simp [hda])
  · exact Or.inr (by simp [hda, hd])

theorem replaceChar_eq_self {a symbol : Char} {s : List Char} (h : a ∉ s) :
    replaceChar a symbol s = s := by
  refine (List.map_congr_left fun c hc => ?_).trans (List.map_id s)
  have hca : c ≠ a := fun he => h (he ▸ hc)
  simp [hca]

/-- The pass that replaces the pair `a b` does nothing to a text without `b`. -/
theorem replacePair_eq_self {a b symbol : Char} (s : List Char) (h : b ∉ s) :
    replacePair a b symbol s = s := by
  induction s with
  | nil => rfl
  | cons c s ih =>
    cases s with
    | nil => rfl
    | cons d s =>
      have hdb : (d == b) = false := by
        rw [beq_eq_false_iff_ne]
        rintro rfl
        exact h (by simp)
      rw [replacePair_cons_cons, hdb, Bool.and_false, if_neg (by decide),
        ih fun hb => h (List.mem_cons_of_mem c hb)]

/-! ### All passes -/

/-- **Only settled characters are left in a normalised text.** -/
theorem isSettled_of_mem_normalize {c : Char} {s : List Char} (h : c ∈ normalize true s) :
    isSettled c = true := by
  obtain ⟨hmem, hblank⟩ := List.mem_filter.mp h
  -- going back through the passes, `c` is a symbol or differs from what each replaces
  have hsymbol : ∀ k : Connective, c = k.symbol → isSettled c = true := by
    rintro k rfl
    exact isSettled_symbol k
  rcases mem_replaceChar hmem with hc | ⟨hmem, hnot⟩
  · exact hsymbol .not hc
  rcases mem_replaceChar hmem with hc | ⟨hmem, hor⟩
  · exact hsymbol (.binary .or) hc
  rcases mem_replaceChar hmem with hc | ⟨hmem, hand⟩
  · exact hsymbol (.binary .and) hc
  rcases mem_replaceChar hmem with hc | ⟨-, hcond⟩
  · exact hsymbol (.binary .cond) hc
  exact isSettled_iff.mpr ⟨by simpa using hblank, hcond, hand, hor, hnot⟩

/-- Shorthand is expanded where one of these four characters stands. -/
theorem expandShorthand_eq_self {s : List Char} (hcond : '>' ∉ s) (hand : '^' ∉ s)
    (hor : 'V' ∉ s) (hnot : '~' ∉ s) : expandShorthand s = s := by
  rw [expandShorthand, replacePair_eq_self s hcond, replaceChar_eq_self hcond,
    replaceChar_eq_self hand, replaceChar_eq_self hor, replaceChar_eq_self hnot]

/-- Of a blank text nothing is left. -/
theorem normalize_of_forall_isBlank {s : List Char} (h : ∀ c ∈ s, isBlank c = true) :
    normalize true s = [] := by
  have hnot : ∀ a : Char, isBlank a = false → a ∉ s := by
    intro a ha hmem
    rw [h a hmem] at ha
    exact Bool.noConfusion ha
  rw [normalize_true, expandShorthand_eq_self (hnot '>' (by decide)) (hnot '^' (by decide))
    (hnot 'V' (by decide)) (hnot '~' (by decide)), dropBlanks, List.filter_eq_nil_iff]
  intro c hc
  simp [h c hc]

/-- **A text of settled characters is normalised already.** -/
theorem normalize_eq_self {s : List Char} (h : ∀ c ∈ s, isSettled c = true) :
    normalize true s = s := by
  have hnot : ∀ a : Char, isSettled a = false → a ∉ s := by
    intro a ha hmem
    rw [h a hmem] at ha
    exact Bool.noConfusion ha
  rw [normalize_true, expandShorthand_eq_self (hnot '>' (by decide)) (hnot '^' (by decide))
    (hnot 'V' (by decide)) (hnot '~' (by decide)), dropBlanks, List.filter_eq_self]
  intro c hc
  rw [(isSettled_iff.mp (h c hc)).1]
  rfl

/-- **Normalising twice is normalising once.** -/
@[simp] theorem normalize_normalize (s : List Char) :
    normalize true (normalize true s) = normalize true s :=
  normalize_eq_self fun _ => isSettled_of_mem_normalize

end Sentential
