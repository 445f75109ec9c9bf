import Mathlib.Algebra.Ring.Parity
import Mathlib.Data.List.DropRight
import Sentential.Diagram.Dot

/-!
# Labels cannot be left early

A label is written between quotes by two passes: the first doubles each backslash, the second puts
a backslash in front of each quote.  In this order the second pass adds backslashes that are not
doubled again, and the two together do to each character what is done to it alone.

A text between quotes is read in pairs that begin with a backslash, and it ends at the first quote
that is not the second character of a pair.  Which quote this is can be told from the backslashes
directly in front of it: their number is odd if the quote belongs to a pair.  In an escaped label it
is odd at every quote and even at the end, so the label ends there, whatever follows.

## Main definitions

* `Dot.replaceByText`, `Dot.escapePasses` — a pass over a label, and the two passes.
* `Dot.backslashesAtEnd` — the number of backslashes directly in front of what follows a text.

## Main results

* `Dot.escapePasses_eq` — the two passes escape each character by itself.
* `Dot.readLabel?_eq_some_iff` — a label is read from its escaped form only.
* `Dot.exists_of_escape_eq_append_quote` — a quote in an escaped label is one of the label.
* `Dot.readLabel?_escape_inverse` — **an escaped label is read back, and nothing in it ends it.**
-/

namespace Sentential.Dot

/-! ### Two passes -/

/-- Replaces each occurrence of the character `a` by `text`. -/
def replaceByText (a : Char) (text s : List Char) : List Char :=
  s.flatMap fun c => if c == a then text else [c]

/-- A label with its backslashes doubled, and then with a backslash in front of each quote. -/
def escapePasses (label : List Char) : List Char :=
  replaceByText '"' ['\\', '"'] (replaceByText '\\' ['\\', '\\'] label)

theorem replaceByText_append (a : Char) (text s s' : List Char) :
    replaceByText a text (s ++ s') = replaceByText a text s ++ replaceByText a text s' :=
  List.flatMap_append

/-- **The two passes escape each character by itself**: the second finds no quote in what the first
has written for a backslash. -/
theorem escapePasses_eq (label : List Char) : escapePasses label = escape label := by
  induction label with
  | nil => rfl
  | cons c label ih =>
    have hchar : replaceByText '"' ['\\', '"'] (replaceByText '\\' ['\\', '\\'] [c])
        = escapeChar c := by
      by_cases hslash : c = '\\'
      · subst hslash; rfl
      by_cases hquote : c = '"'
      · subst hquote; rfl
      · simp [replaceByText, escapeChar, hslash, hquote]
    calc escapePasses (c :: label)
        = replaceByText '"' ['\\', '"'] (replaceByText '\\' ['\\', '\\'] ([c] ++ label)) := rfl
      _ = escapeChar c ++ escapePasses label := by
        rw [replaceByText_append, replaceByText_append, hchar, escapePasses]
      _ = escape (c :: label) := by rw [ih, escape_cons]

/-! ### Reading -/

/-- A character that is not escaped is read as it is. -/
theorem readLabel?_cons_of_ne {c : Char} (hquote : c ≠ '"') (hslash : c ≠ '\\') {s : List Char}
    (hs : s ≠ []) :
    readLabel? (c :: s) = (readLabel? s).map fun (label, rest) => (c :: label, rest) := by
  cases s with
  | nil => exact absurd rfl hs
  | cons d s => simp [readLabel?, hquote, hslash]

/-- **A label is read back**, whatever is in it, and what follows its closing quote is left. -/
theorem readLabel?_escape_append (label rest : List Char) :
    readLabel? (escape label ++ '"' :: rest) = some (label, rest) := by
  induction label with
  | nil => cases rest <;> simp [readLabel?]
  | cons c label ih =>
    rw [escape_cons, escapeChar]
    by_cases hslash : c = '\\'
    · simp [hslash, readLabel?, ih]
    by_cases hquote : c = '"'
    · simp [hquote, readLabel?, ih]
    · have hrest : escape label ++ '"' :: rest ≠ [] := by simp
      simp [hslash, hquote, readLabel?_cons_of_ne hquote hslash hrest, ih]

/-- What is read as a label is one that has been escaped. -/
theorem eq_escape_append_of_readLabel? {text label rest : List Char}
    (h : readLabel? text = some (label, rest)) : text = escape label ++ '"' :: rest := by
  fun_induction readLabel? text generalizing label with
  | case1 => cases h
  | case2 c hquote =>
    obtain ⟨rfl, rfl⟩ := Prod.mk.inj (Option.some.inj h)
    rw [eq_of_beq hquote]
    rfl
  | case3 => cases h
  | case4 c d s hquote =>
    obtain ⟨rfl, rfl⟩ := Prod.mk.inj (Option.some.inj h)
    rw [eq_of_beq hquote]
    rfl
  | case5 c d s _ hslash hpair ih =>
    obtain ⟨⟨tail, rest'⟩, hread, hlabel⟩ := Option.map_eq_some_iff.mp h
    obtain ⟨rfl, rfl⟩ := Prod.mk.inj hlabel
    have hchar : escapeChar d = ['\\', d] := by
      rw [Bool.or_eq_true, beq_iff_eq, beq_iff_eq] at hpair
      rcases hpair with rfl | rfl <;> rfl
    rw [ih hread, eq_of_beq hslash, escape_cons, hchar]
    rfl
  | case6 => cases h
  | case7 c d s hquote hslash ih =>
    obtain ⟨⟨tail, rest'⟩, hread, hlabel⟩ := Option.map_eq_some_iff.mp h
    obtain ⟨rfl, rfl⟩ := Prod.mk.inj hlabel
    have hchar : escapeChar c = [c] := by simp_all [escapeChar]
    rw [ih hread, escape_cons, hchar]
    rfl

/-- **A label is read from its escaped form only.** -/
theorem readLabel?_eq_some_iff {text label rest : List Char} :
    readLabel? text = some (label, rest) ↔ text = escape label ++ '"' :: rest := by
  refine ⟨eq_escape_append_of_readLabel?, ?_⟩
  rintro rfl
  exact readLabel?_escape_append label rest

/-- Where a label ends can be told from the text. -/
theorem escape_append_quote_inj {label label' rest rest' : List Char}
    (h : escape label ++ '"' :: rest = escape label' ++ '"' :: rest') :
    label = label' ∧ rest = rest' := by
  have hread := congrArg readLabel? h
  rw [readLabel?_escape_append, readLabel?_escape_append] at hread
  exact Prod.mk.inj (Option.some.inj hread)

theorem escape_injective : Function.Injective escape := by
  intro label label' h
  have hclosed : escape label ++ ['"'] = escape label' ++ ['"'] := by rw [h]
  exact (escape_append_quote_inj hclosed).1

/-! ### Backslashes in front of a quote -/

/-- The number of backslashes at the end of a text. -/
def backslashesAtEnd (s : List Char) : Nat := (s.rtakeWhile fun c => c == '\\').length

theorem backslashesAtEnd_append_backslash (s : List Char) :
    backslashesAtEnd (s ++ ['\\']) = backslashesAtEnd s + 1 := by
  rw [backslashesAtEnd, List.rtakeWhile_concat_pos _ _ _ rfl, List.length_append]
  rfl

theorem backslashesAtEnd_append_of_ne {c : Char} (h : c ≠ '\\') (s : List Char) :
    backslashesAtEnd (s ++ [c]) = 0 := by
  have hend : (s ++ [c]).rtakeWhile (fun c => c == '\\') = [] :=
    List.rtakeWhile_concat_neg _ s c fun hc => h (eq_of_beq hc)
  rw [backslashesAtEnd, hend, List.length_nil]

/-- **The backslashes at the end of an escaped label are pairs.**  The one in front of an escaped
quote is not at the end. -/
theorem even_backslashesAtEnd_escape (label : List Char) :
    Even (backslashesAtEnd (escape label)) := by
  induction label using List.reverseRecOn with
  | nil => exact Even.zero
  | append_singleton label c ih =>
    have hlast : escape (label ++ [c]) = escape label ++ escapeChar c := by
      rw [escape_append, escape_cons, escape_nil, List.append_nil]
    rw [hlast]
    by_cases hslash : c = '\\'
    · subst hslash
      have htwo : escape label ++ escapeChar '\\' = escape label ++ ['\\'] ++ ['\\'] := by
        rw [List.append_assoc]
        rfl
      rw [htwo, backslashesAtEnd_append_backslash, backslashesAtEnd_append_backslash]
      exact ih.add even_two
    -- any other character ends in itself
    obtain ⟨front, hfront⟩ : ∃ front, escape label ++ escapeChar c = front ++ [c] := by
      by_cases hquote : c = '"'
      · subst hquote
        exact ⟨escape label ++ ['\\'], by rw [List.append_assoc]; rfl⟩
      · exact ⟨escape label, by simp [escapeChar, hslash, hquote]⟩
    rw [hfront, backslashesAtEnd_append_of_ne hslash]
    exact Even.zero

/-- The only quote in what is written for a character is that of an escaped quote. -/
theorem eq_of_escapeChar_eq_append_quote {c : Char} {before after : List Char}
    (h : escapeChar c = before ++ '"' :: after) : c = '"' ∧ before = ['\\'] ∧ after = [] := by
  have hmem : '"' ∈ escapeChar c := h ▸ List.mem_append_right before List.mem_cons_self
  by_cases hslash : c = '\\'
  · subst hslash
    exact absurd hmem (by decide)
  by_cases hquote : c = '"'
  · subst hquote
    rcases before with _ | ⟨d, _ | ⟨e, before⟩⟩
    · cases h
    · obtain ⟨rfl, hlast⟩ := List.cons.inj h
      exact ⟨rfl, rfl, (List.cons.inj hlast).2.symm⟩
    · have hlength := congrArg List.length h
      simp [escapeChar] at hlength
  · have hsingle : escapeChar c = [c] := by simp [escapeChar, hslash, hquote]
    rw [hsingle, List.mem_singleton] at hmem
    exact absurd hmem.symm hquote

/-- **A quote in an escaped label is one of the label**, and stands behind the backslash that was
put in front of it. -/
theorem exists_of_escape_eq_append_quote {label : List Char} : ∀ {before after : List Char},
    escape label = before ++ '"' :: after → ∃ left right : List Char,
      label = left ++ '"' :: right ∧ before = escape left ++ ['\\'] ∧ after = escape right := by
  induction label with
  | nil => intro before after h; simp at h
  | cons c label ih =>
    intro before after h
    -- a quote behind what is written for `c` is one of the rest
    have hrest : ∀ {middle : List Char}, before = escapeChar c ++ middle →
        escape label = middle ++ '"' :: after → ∃ left right : List Char,
          c :: label = left ++ '"' :: right ∧ before = escape left ++ ['\\'] ∧
            after = escape right := by
      rintro middle rfl hmiddle
      obtain ⟨left, right, rfl, rfl, rfl⟩ := ih hmiddle
      exact ⟨c :: left, right, rfl, by rw [escape_cons, List.append_assoc], rfl⟩
    rw [escape_cons, List.append_eq_append_iff] at h
    rcases h with ⟨middle, hbefore, hmiddle⟩ | ⟨middle, hchar, hmiddle⟩
    · exact hrest hbefore hmiddle
    cases middle with
    | nil =>
      have hbefore : before = escapeChar c ++ [] := by rw [hchar, List.append_nil, List.append_nil]
      exact hrest hbefore hmiddle.symm
    | cons d middle =>
      obtain ⟨rfl, hafter⟩ := List.cons.inj hmiddle
      obtain ⟨rfl, rfl, rfl⟩ := eq_of_escapeChar_eq_append_quote hchar
      exact ⟨[], label, rfl, rfl, hafter⟩

theorem odd_backslashesAtEnd_of_escape {label before after : List Char}
    (h : escape label = before ++ '"' :: after) : Odd (backslashesAtEnd before) := by
  obtain ⟨left, right, -, rfl, -⟩ := exists_of_escape_eq_append_quote h
  rw [backslashesAtEnd_append_backslash]
  exact (even_backslashesAtEnd_escape left).add_one

/-- **An escaped label is read back, and nothing in it ends it.**  The two passes escape each
character by itself, and what they write is read back, whatever follows the closing quote.  A text
begins with a label and its closing quote only if it begins with the escaped label and a quote, and
different labels are escaped differently.  The closing quote is the first with an even number of
backslashes directly in front of it: at every quote in the escaped label that number is odd, and
at its end it is even. -/
theorem readLabel?_escape_inverse (label rest : List Char) :
    escapePasses label = escape label ∧
    readLabel? (escapePasses label ++ '"' :: rest) = some (label, rest) ∧
    (∀ text, readLabel? text = some (label, rest) ↔ text = escape label ++ '"' :: rest) ∧
    (∀ label', escape label' = escape label ↔ label' = label) ∧
    (∀ before after, escape label = before ++ '"' :: after → Odd (backslashesAtEnd before)) ∧
    Even (backslashesAtEnd (escape label)) := by
  refine ⟨escapePasses_eq label, ?_, fun _ => readLabel?_eq_some_iff,
    fun _ => escape_injective.eq_iff, fun _ _ => odd_backslashesAtEnd_of_escape,
    even_backslashesAtEnd_escape label⟩
  rw [escapePasses_eq]
  exact readLabel?_escape_append label rest

/-- In the label with a quote between two backslashes, the quote comes to stand behind three
backslashes, which is odd, and the closing quote behind two. -/
theorem readLabel?_escape_inverse_quote_between_backslashes :
    let text := "\\\\\\\"\\\\\"];".toList
    readLabel? text = some ("\\\"\\".toList, "];".toList) ∧
      escapePasses "\\\"\\".toList = "\\\\\\".toList ++ '"' :: "\\\\".toList ∧
      escape "\\\"\\".toList = "\\\\\\".toList ++ '"' :: "\\\\".toList ∧
      Odd (backslashesAtEnd "\\\\\\".toList) ∧ Even (backslashesAtEnd "\\\\\\\"\\\\".toList) := by
  intro text
  obtain ⟨hpasses, hread, -, -, hodd, heven⟩ :=
    readLabel?_escape_inverse "\\\"\\".toList "];".toList
  have hquote : escape "\\\"\\".toList = "\\\\\\".toList ++ '"' :: "\\\\".toList := rfl
  exact ⟨hread, hpasses.trans hquote, hquote, hodd _ _ hquote, heven⟩

end Sentential.Dot
