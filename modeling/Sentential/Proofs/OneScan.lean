import Sentential.Proofs.Grammar

/-!
# Normalising in one scan

Normalising goes over a text six times: once for each shorthand, and once more for the white
space.  None of these passes finds anything in what an earlier one has written, and white
space is dropped too late for a `<` and a `>` to meet, so a single scan from left to right
that looks one character ahead does the same.

No shorthand is left after it, whether white space is dropped or not.  So normalising again
can drop white space and nothing else, and it makes no difference to the reader, which
normalises every text that it is given.

## Main definitions

* `shorthand?` — the connective that a single character is shorthand for.
* `rewriteChar`, `rewriteScan` — what the scan writes for a character, and for a text.

## Main results

* `normalize_eq_flatMap` — after the pass for the pair `<>`, each character is rewritten by
  itself.
* `normalize_append` — two texts are normalised side by side, unless a pair `<>` falls between
  them.
* `shorthand?_of_mem_normalize` — no shorthand is left.
* `normalize_normalize_or` — normalising twice.
* `normalize_in_one_scan` — **normalising is one scan**, and what follows from it.
-/

namespace Sentential

/-! ### The scan -/

/-- The connective that a single character is shorthand for, if it is one. -/
def shorthand? : Char → Option Connective
  | '>' => some (.binary .cond)
  | '^' => some (.binary .and)
  | 'V' => some (.binary .or)
  | '~' => some .not
  | _ => none

/-- What a single character is rewritten to: the symbol that it is shorthand for, nothing if
it is white space that is to be dropped, and else itself. -/
def rewriteChar (strip : Bool) (c : Char) : List Char :=
  match shorthand? c with
  | some k => [k.symbol]
  | none => if strip && isBlank c then [] else [c]

/-- What a text is rewritten to by a scan from left to right, which takes the two characters
`<>` together wherever they come. -/
def rewriteScan (strip : Bool) : List Char → List Char
  | [] => []
  | '<' :: '>' :: s => BinaryOp.iff.symbol :: rewriteScan strip s
  | c :: s => rewriteChar strip c ++ rewriteScan strip s

theorem shorthand?_eq_none_iff {c : Char} :
    shorthand? c = none ↔ c ≠ '>' ∧ c ≠ '^' ∧ c ≠ 'V' ∧ c ≠ '~' := by
  unfold shorthand?
  split <;> simp_all

/-- Symbols are no shorthand. -/
@[simp] theorem shorthand?_symbol (k : Connective) : shorthand? k.symbol = none := by
  rcases k with _ | _ | _ | _ | _ <;> decide

/-- Symbols are no white space. -/
@[simp] theorem isBlank_symbol (k : Connective) : isBlank k.symbol = false :=
  (isSettled_iff.mp (isSettled_symbol k)).1

/-- Symbols are left alone. -/
@[simp] theorem rewriteChar_symbol (strip : Bool) (k : Connective) :
    rewriteChar strip k.symbol = [k.symbol] := by
  simp [rewriteChar]

/-! ### The passes -/

/-- What the passes for the single characters make of a character. -/
def expandChar (c : Char) : Char := ((shorthand? c).map Connective.symbol).getD c

/-- **None of the passes for single characters finds what another one has written**, so each
character meets one of them at most. -/
theorem expandShorthand_eq_map (s : List Char) :
    expandShorthand s = (replacePair '<' '>' BinaryOp.iff.symbol s).map expandChar := by
  simp only [expandShorthand, replaceChar, List.map_map]
  refine List.map_congr_left fun c _ => ?_
  by_cases hcond : c = '>'
  · subst hcond; decide
  by_cases hand : c = '^'
  · subst hand; decide
  by_cases hor : c = 'V'
  · subst hor; decide
  by_cases hnot : c = '~'
  · subst hnot; decide
  have hnone : shorthand? c = none := shorthand?_eq_none_iff.mpr ⟨hcond, hand, hor, hnot⟩
  simp [expandChar, hnone, hcond, hand, hor, hnot]

/-- What a character is rewritten to is no white space unless the character was, as no symbol
is. -/
theorem rewriteChar_eq (strip : Bool) (c : Char) :
    rewriteChar strip c = if strip && isBlank (expandChar c) then [] else [expandChar c] := by
  unfold rewriteChar expandChar
  cases shorthand? c with
  | none => rfl
  | some k => simp

/-- **After the pass for the pair, each character is rewritten by itself.** -/
theorem normalize_eq_flatMap (strip : Bool) (s : List Char) :
    normalize strip s
      = (replacePair '<' '>' BinaryOp.iff.symbol s).flatMap (rewriteChar strip) := by
  have hkeep : normalize strip s
      = (expandShorthand s).filter fun c => !(strip && isBlank c) := by
    cases strip with
    | false => exact (List.filter_eq_self.mpr fun _ _ => rfl).symm
    | true => rfl
  rw [hkeep, expandShorthand_eq_map]
  induction replacePair '<' '>' BinaryOp.iff.symbol s with
  | nil => rfl
  | cons c t ih =>
    rw [List.map_cons, List.filter_cons, List.flatMap_cons, ih, rewriteChar_eq]
    cases strip && isBlank (expandChar c) <;> rfl

/-- Where the pair does not stand its pass goes on with the next character. -/
theorem replacePair_cons_of_ne {a b symbol c : Char} {s : List Char}
    (h : ∀ t, c = a → s = b :: t → False) :
    replacePair a b symbol (c :: s) = c :: replacePair a b symbol s := by
  cases s with
  | nil => rfl
  | cons d t =>
    rw [replacePair_cons_cons, if_neg]
    intro hpair
    rw [Bool.and_eq_true, beq_iff_eq, beq_iff_eq] at hpair
    obtain ⟨hc, rfl⟩ := hpair
    exact h t hc rfl

/-- **The pass for the pair can be made by the scan.** -/
theorem flatMap_replacePair (strip : Bool) (s : List Char) :
    (replacePair '<' '>' BinaryOp.iff.symbol s).flatMap (rewriteChar strip)
      = rewriteScan strip s := by
  fun_induction rewriteScan strip s with
  | case1 => rfl
  | case2 s ih =>
    have hsymbol : rewriteChar strip BinaryOp.iff.symbol = [BinaryOp.iff.symbol] :=
      rewriteChar_symbol strip (.binary .iff)
    show (BinaryOp.iff.symbol :: replacePair '<' '>' BinaryOp.iff.symbol s).flatMap _ = _
    rw [List.flatMap_cons, hsymbol, ih]
    rfl
  | case3 c s h ih => rw [replacePair_cons_of_ne h, List.flatMap_cons, ih]

/-- The passes together are the scan. -/
theorem normalize_eq_rewriteScan (strip : Bool) (s : List Char) :
    normalize strip s = rewriteScan strip s := by
  rw [normalize_eq_flatMap, flatMap_replacePair]

/-! ### Texts side by side -/

/-- Where no pair begins, the scan writes what the character is rewritten to and goes on. -/
theorem rewriteScan_cons {strip : Bool} {c : Char} {s : List Char}
    (h : c = '<' → s.head? ≠ some '>') :
    rewriteScan strip (c :: s) = rewriteChar strip c ++ rewriteScan strip s := by
  rw [rewriteScan]
  rintro t hc rfl
  exact h hc rfl

/-- **Two texts are scanned side by side as each by itself**, unless a pair falls between
them. -/
theorem rewriteScan_append {strip : Bool} {s t : List Char}
    (h : s.getLast? = some '<' → t.head? ≠ some '>') :
    rewriteScan strip (s ++ t) = rewriteScan strip s ++ rewriteScan strip t := by
  have hlast : ∀ {c : Char} {s : List Char}, s.getLast? = some '<' →
      (c :: s).getLast? = some '<' := fun h => by simp [List.getLast?_cons, h]
  fun_induction rewriteScan strip s with
  | case1 => rfl
  | case2 s ih =>
    rw [List.cons_append, List.cons_append, rewriteScan, ih fun hs => h (hlast (hlast hs)),
      List.cons_append]
  | case3 c s hne ih =>
    have hcons : c = '<' → (s ++ t).head? ≠ some '>' := by
      rintro rfl
      cases s with
      | nil => exact h rfl
      | cons d s =>
        rw [List.cons_append, List.head?_cons, Ne, Option.some.injEq]
        rintro rfl
        exact hne s rfl rfl
    rw [List.cons_append, rewriteScan_cons hcons, ih fun hs => h (hlast hs), List.append_assoc]

/-- So they are normalised side by side as each by itself. -/
theorem normalize_append {strip : Bool} {s t : List Char}
    (h : s.getLast? = some '<' → t.head? ≠ some '>') :
    normalize strip (s ++ t) = normalize strip s ++ normalize strip t := by
  simp only [normalize_eq_rewriteScan, rewriteScan_append h]

/-! ### What is left -/

/-- **No shorthand is left in a normalised text.** -/
theorem shorthand?_of_mem_normalize {strip : Bool} {c : Char} {s : List Char}
    (h : c ∈ normalize strip s) : shorthand? c = none := by
  rw [normalize_eq_flatMap, List.mem_flatMap] at h
  obtain ⟨d, -, hc⟩ := h
  unfold rewriteChar at hc
  split at hc
  · rw [List.mem_singleton.mp hc]
    exact shorthand?_symbol _
  · rename_i hnone
    split at hc
    · cases hc
    · rw [List.mem_singleton.mp hc]
      exact hnone

/-- The four characters that are shorthand by themselves are all gone. -/
theorem shorthand_not_mem_normalize (strip : Bool) (s : List Char) :
    '>' ∉ normalize strip s ∧ '^' ∉ normalize strip s ∧ 'V' ∉ normalize strip s ∧
      '~' ∉ normalize strip s := by
  have hnot : ∀ {a : Char}, shorthand? a ≠ none → a ∉ normalize strip s :=
    fun ha hmem => ha (shorthand?_of_mem_normalize hmem)
  exact ⟨hnot (by decide), hnot (by decide), hnot (by decide), hnot (by decide)⟩

/-- **Normalising twice** drops white space if one of the two is to drop it, and is else to
normalise once. -/
theorem normalize_normalize_or (a b : Bool) (s : List Char) :
    normalize b (normalize a s) = normalize (a || b) s := by
  obtain ⟨hcond, hand, hor, hnot⟩ := shorthand_not_mem_normalize a s
  have hagain : expandShorthand (normalize a s) = normalize a s :=
    expandShorthand_eq_self hcond hand hor hnot
  cases b with
  | false => rw [Bool.or_false, normalize_false, hagain]
  | true =>
    rw [Bool.or_true, normalize_true, hagain]
    cases a with
    | false => rfl
    | true => simp only [normalize_true, dropBlanks, List.filter_filter, Bool.and_self]

/-- It makes no difference to the reader whether a text has been normalised. -/
theorem parse_normalize (strip : Bool) (limit : Nat) (s : List Char) :
    parse limit (normalize strip s) = parse limit s := by
  calc parse limit (normalize strip s)
      = parseAt limit (limit + 1) (normalize true (normalize strip s)) :=
        (parseAt_normalize limit (limit + 1) _).symm
    _ = parseAt limit (limit + 1) (normalize true s) := by
        rw [normalize_normalize_or, Bool.or_true]
    _ = parse limit s := parseAt_normalize limit (limit + 1) s

/-- **Normalising is one scan.**  The passes over a text, one for each shorthand and one for
the white space, make of it what one scan from left to right does.  So to normalise twice is
to normalise once, and to drop the white space if either was to do so; none of the four
single characters that are shorthand is left; and a normalised text is read as the text
itself is, or rejected for the same fault at the same place, within every limit. -/
theorem normalize_in_one_scan (s : List Char) :
    (∀ strip, normalize strip s = rewriteScan strip s) ∧
    (∀ a b, normalize b (normalize a s) = normalize (a || b) s) ∧
    (∀ strip, '>' ∉ normalize strip s ∧ '^' ∉ normalize strip s ∧ 'V' ∉ normalize strip s ∧
      '~' ∉ normalize strip s) ∧
    ∀ strip limit, parse limit (normalize strip s) = parse limit s := by
  refine ⟨fun strip => ?_, fun a b => normalize_normalize_or a b s,
    fun strip => shorthand_not_mem_normalize strip s, fun strip limit =>
      parse_normalize strip limit s⟩
  rw [normalize_eq_flatMap, flatMap_replacePair]

/-- Of `<<>>` the scan takes the inner pair together, and what stands around it by itself; the
blank between `<` and `>` keeps the two apart, also when it is dropped. -/
example : rewriteScan true "p<<>>q < > ~V".toList = "p<↔→q<→¬⋁".toList := by decide

end Sentential
