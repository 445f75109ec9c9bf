import Mathlib.Data.String.Basic
import Sentential.Proofs.Prefixes

/-!
# Dropping the outer pair

A text loses its outer pair of parentheses if the first of them is closed by the last one.  To find
that out, a walk through the text looks for a `)` that leaves nothing open and is not the last
character.  What is open at the end, or whether ever more was closed than open, is not asked.  But
before more can be closed than was open nothing must be open, and there the walk ends.  So what
it asks is whether the text inside ever closes more than was open, for all texts, also for those
that are not balanced.

The characters are numbered by the walk, but the text inside is cut out by bytes, of which a
character can have several.  The two parentheses have one byte each, so both cuts are between
characters.

## Main definitions

* `closesBefore` — the walk, which numbers all characters and counts in integers.
* `sliceBytes?` — a part of a text that is cut out by bytes.
* `splitOuterParens?` — the text without its outer pair, and whether it had one.

## Main results

* `closesEarly_concat_iff` — the first parenthesis is not closed early if the text inside never
  closes more than was open.
* `splitOuterParens?_eq` — the text inside can be cut out by bytes.
* `unwrap_exact` — **when the outer pair is dropped, and what becomes of the text.**
-/

namespace Sentential

/-! ### The walk -/

/-- Whether a text, the first character of which has the number `position` and stands inside
`depth` open parentheses, has a `)` that leaves nothing open and has not the number `last`. -/
def closesBefore (last position : Nat) (depth : Int) : List Char → Bool
  | [] => false
  | c :: s =>
    if c == '(' then closesBefore last (position + 1) (depth + 1) s
    else if c == ')' then
      (depth - 1 == 0 && position != last) || closesBefore last (position + 1) (depth - 1) s
    else closesBefore last (position + 1) depth s

theorem closesBefore_open (last position : Nat) (depth : Int) (s : List Char) :
    closesBefore last position depth ('(' :: s)
      = closesBefore last (position + 1) (depth + 1) s := rfl

theorem closesBefore_close (last position : Nat) (depth : Int) (s : List Char) :
    closesBefore last position depth (')' :: s)
      = ((depth - 1 == 0 && position != last) ||
          closesBefore last (position + 1) (depth - 1) s) := rfl

theorem closesBefore_cons_of_ne {c : Char} (hopen : c ≠ '(') (hclose : c ≠ ')')
    (last position : Nat) (depth : Int) (s : List Char) :
    closesBefore last position depth (c :: s) = closesBefore last (position + 1) depth s := by
  simp [closesBefore, hopen, hclose]

/-- **The walk comes to no depth below one**, but with the last character.  So it can count in
natural numbers, and the last character is the one that nothing follows. -/
theorem closesBefore_eq_closesEarly {last : Nat} (s : List Char) : ∀ {position : Nat} (d : Nat),
    position + s.length = last + 1 →
      closesBefore last position (d + 1 : Nat) s = closesEarly (d + 1) s := by
  induction s with
  | nil => intro position d _; rfl
  | cons c s ih =>
    intro position d hlast
    have hrest : position + 1 + s.length = last + 1 := by rwa [Nat.add_assoc, Nat.add_comm 1]
    by_cases hopen : c = '('
    · subst hopen
      rw [closesBefore_open, closesEarly_open]
      exact ih (d + 1) hrest
    by_cases hclose : c = ')'
    · subst hclose
      have hdepth : ((d + 1 : Nat) : Int) - 1 = (d : Nat) := by omega
      rw [closesBefore_close, closesEarly_close, hdepth, Nat.add_sub_cancel]
      cases d with
      | zero =>
        cases s with
        | nil =>
          have heq : position = last := Nat.succ.inj hlast
          simp [closesBefore, heq]
        | cons c s =>
          have hne : position ≠ last := by
            rw [List.length_cons] at hrest
            omega
          simp [hne]
      | succ d =>
        have hinside : ((d + 1 : Nat) : Int) ≠ 0 := by omega
        rw [ih d hrest, beq_eq_false_iff_ne.mpr hinside]
        simp
    · rw [closesBefore_cons_of_ne hopen hclose, closesEarly_cons_of_ne hopen hclose, ih d hrest]

/-- **The first parenthesis is not closed before the end exactly if the text inside never closes
more than was open.** -/
theorem closesEarly_concat_iff (m : List Char) : ∀ d : Nat,
    closesEarly (d + 1) (m ++ [')']) = false ↔ NeverOverclosed d m := by
  induction m with
  | nil =>
    intro d
    exact iff_of_true (by simp) (neverOverclosed_nil d)
  | cons c m ih =>
    intro d
    rw [List.cons_append]
    by_cases hopen : c = '('
    · subst hopen
      rw [closesEarly_open, ih, neverOverclosed_open]
    by_cases hclose : c = ')'
    · subst hclose
      cases d with
      | zero => exact iff_of_false (by simp) (not_neverOverclosed_close_zero m)
      | succ d =>
        rw [neverOverclosed_close_succ, ← ih]
        simp
    · rw [closesEarly_cons_of_ne hopen hclose, neverOverclosed_cons_of_ne hopen hclose, ih]

theorem unwrap?_eq_some_iff {s m : List Char} :
    unwrap? s = some m ↔
      s = '(' :: (m ++ [')']) ∧ ∀ p, p <+: m → p.count ')' ≤ p.count '(' := by
  rw [← neverOverclosed_zero_iff, ← closesEarly_concat_iff]
  constructor
  · exact fun h => ⟨eq_group_of_unwrap? h, closesEarly_of_unwrap? h⟩
  · rintro ⟨rfl, h⟩
    rw [unwrap?_cons, h]
    simp

/-! ### Cutting by bytes -/

/-- The part of a text from the byte `start` on and up to the byte `stop`.  There is none if they
are not bytes of the text in this order, or if one of them is inside a character. -/
def sliceBytes? (text : String) (start stop : Nat) : Option String :=
  if start ≤ stop ∧ (String.Pos.Raw.mk start).IsValid text ∧
      (String.Pos.Raw.mk stop).IsValid text then
    some (String.Pos.Raw.extract text ⟨start⟩ ⟨stop⟩)
  else none

/-- A part of a text can be cut out by bytes. -/
theorem sliceBytes?_ofList (l m r : List Char) :
    sliceBytes? (String.ofList (l ++ m ++ r)) (String.utf8Len l)
      (String.utf8Len l + String.utf8Len m) = some (String.ofList m) := by
  have hstart : (String.Pos.Raw.mk (String.utf8Len l)).IsValid (String.ofList (l ++ m ++ r)) := by
    refine String.Pos.Raw.isValid_iff_exists_append.mpr
      ⟨String.ofList l, String.ofList (m ++ r), ?_, ?_⟩
    · rw [← String.ofList_append, List.append_assoc]
    · rw [String.rawEndPos, String.utf8ByteSize_ofList]
  have hstop : (String.Pos.Raw.mk (String.utf8Len l + String.utf8Len m)).IsValid
      (String.ofList (l ++ m ++ r)) := by
    refine String.Pos.Raw.isValid_iff_exists_append.mpr
      ⟨String.ofList (l ++ m), String.ofList r, ?_, ?_⟩
    · rw [← String.ofList_append]
    · rw [String.rawEndPos, String.utf8ByteSize_ofList, String.utf8Len_append]
  rw [sliceBytes?, if_pos ⟨Nat.le_add_right _ _, hstart, hstop⟩, String.extract_of_valid]

/-- The text without its outer pair, and whether it had one.  There is no result if the bytes of
the text inside cannot be cut out. -/
def splitOuterParens? (s : List Char) : Option (String × Bool) :=
  let text := String.ofList s
  if s.all isBlank || s.head? != some '(' || s.getLast? != some ')' ||
      closesBefore (s.length - 1) 0 0 s then
    some (text, false)
  else
    (sliceBytes? text '('.utf8Size (text.utf8ByteSize - ')'.utf8Size)).map (·, true)

/-- The walk and the tests before it find an outer pair exactly if there is one. -/
theorem noOuterPair_eq_isNone (s : List Char) :
    (s.all isBlank || s.head? != some '(' || s.getLast? != some ')' ||
      closesBefore (s.length - 1) 0 0 s) = (unwrap? s).isNone := by
  cases s with
  | nil => rfl
  | cons c s =>
    rw [unwrap?_cons]
    by_cases hopen : c = '('
    · subst hopen
      have hblank : isBlank '(' = false := by decide
      -- the walk stands behind the first parenthesis
      have hwalk : closesBefore s.length 0 0 ('(' :: s) = closesEarly 1 s :=
        closesBefore_eq_closesEarly s 0 (Nat.add_comm 1 s.length)
      have hlast : ('(' :: s).getLast? = some ')' ↔ s.getLast? = some ')' := by
        cases s with
        | nil => decide
        | cons d s => rw [List.getLast?_cons_cons]
      rw [List.length_cons, Nat.add_sub_cancel, hwalk]
      by_cases hclose : s.getLast? = some ')'
      · cases hearly : closesEarly 1 s <;> simp [hblank, hlast.mpr hclose, hclose]
      · simp [hclose, mt hlast.mp hclose]
    · simp [hopen]

theorem sliceBytes?_group (m : List Char) :
    sliceBytes? (String.ofList ('(' :: (m ++ [')']))) '('.utf8Size
      ((String.ofList ('(' :: (m ++ [')']))).utf8ByteSize - ')'.utf8Size)
        = some (String.ofList m) := by
  have hslice := sliceBytes?_ofList ['('] m [')']
  have hopen : String.utf8Len ['('] = '('.utf8Size := rfl
  have hsize : (String.ofList ('(' :: (m ++ [')']))).utf8ByteSize
      = '('.utf8Size + String.utf8Len m + ')'.utf8Size := by
    rw [String.utf8ByteSize_ofList, String.utf8Len_cons, String.utf8Len_append,
      Nat.add_comm _ '('.utf8Size, Nat.add_assoc]
    rfl
  rw [hsize, Nat.add_sub_cancel, ← hopen]
  exact hslice

/-- **The bytes of the text inside can always be cut out**, and the walk that counts in integers
finds the same outer pairs. -/
theorem splitOuterParens?_eq (s : List Char) :
    splitOuterParens? s = some (String.ofList (unwrap s), (unwrap? s).isSome) := by
  rw [splitOuterParens?, noOuterPair_eq_isNone, unwrap]
  cases h : unwrap? s with
  | none => rfl
  | some m =>
    rw [eq_group_of_unwrap? h, sliceBytes?_group]
    rfl

/-- **When the outer pair is dropped, and what becomes of the text.**  Of every text, balanced or
not, the outer pair is dropped exactly if it stands around a text that never closes more than was
open; otherwise the text stays as it is.  The bytes of the text inside can always be cut out.
Dropping the pair takes away as many `(` as `)`, and what is left is balanced if the text was. -/
theorem unwrap_exact (s : List Char) :
    splitOuterParens? s = some (String.ofList (unwrap s), (unwrap? s).isSome) ∧
    (∀ m, unwrap? s = some m ↔
      s = '(' :: (m ++ [')']) ∧ ∀ p, p <+: m → p.count ')' ≤ p.count '(') ∧
    (unwrap? s = none → unwrap s = s) ∧
    ∀ m, unwrap? s = some m → unwrap s = m ∧
      sliceBytes? (String.ofList s) '('.utf8Size
        ((String.ofList s).utf8ByteSize - ')'.utf8Size) = some (String.ofList m) ∧
      (m.count '(' : Int) - m.count ')' = s.count '(' - s.count ')' ∧
      (balanced 0 m = true ↔ balanced 0 s = true) := by
  refine ⟨splitOuterParens?_eq s, fun m => unwrap?_eq_some_iff, unwrap_eq_self, fun m h => ?_⟩
  have hunwrap : unwrap s = m := by rw [unwrap, h, Option.getD_some]
  have hbal : bracketFault? 0 0 m = bracketFault? 0 0 s := by
    rw [← hunwrap, bracketFault?_unwrap]
  have hgroup : s = '(' :: (m ++ [')']) := eq_group_of_unwrap? h
  refine ⟨hunwrap, ?_, ?_, ?_⟩
  · rw [hgroup, sliceBytes?_group]
  · rw [hgroup, count_open_group, count_close_group]
    omega
  · rw [← bracketFault?_eq_none_iff m 0 0, ← bracketFault?_eq_none_iff s 0 0, hbal]

/-- The text `((¬p)∧(q)` is not balanced, but it loses its outer pair, and there is still one `(`
too many.  In `(p)⋁(q)` a prefix of the text inside closes more than was open. -/
theorem unwrap_exact_unbalanced :
    splitOuterParens? "((¬p)∧(q)".toList = some ("(¬p)∧(q", true) ∧
      balanced 0 "(¬p)∧(q".toList = false ∧ ("(¬p)∧(q".toList.count '(' : Int) - 1 = 1 ∧
      unwrap? "(p)⋁(q)".toList = none := by
  obtain ⟨hsplit, hsome, -, hinner⟩ := unwrap_exact "((¬p)∧(q)".toList
  have hpair : unwrap? "((¬p)∧(q)".toList = some "(¬p)∧(q".toList := by
    have hnever : NeverOverclosed 0 "(¬p)∧(q".toList := by decide
    exact (hsome _).mpr ⟨rfl, neverOverclosed_zero_iff.mp hnever⟩
  obtain ⟨hunwrap, -, hcount, hbal⟩ := hinner _ hpair
  refine ⟨?_, ?_, hcount, ?_⟩
  · rw [hsplit, hunwrap, hpair, String.ofList_toList]
    rfl
  · rw [← Bool.not_eq_true, hbal]
    decide
  · obtain ⟨-, hsome, -, -⟩ := unwrap_exact "(p)⋁(q)".toList
    refine Option.eq_none_iff_forall_ne_some.mpr fun m hm => ?_
    obtain ⟨hgroup, hbegin⟩ := (hsome m).mp hm
    obtain rfl : m = "p)⋁(q".toList := (List.append_inj' (List.cons.inj hgroup).2 rfl).1.symm
    exact absurd (hbegin "p)".toList ⟨"⋁(q".toList, rfl⟩) (by decide)

end Sentential
