import Mathlib.Data.List.Chain
import Sentential.Proofs.Prefixes

/-!
# Tokens and their texts

A text is cut into tokens and nothing is lost, so the tokens can be joined again.  The other way
round, not every list of tokens is what its text is cut into: two runs of plain characters that
stand side by side become one, and a text in parentheses that has a part outside them becomes
several.  The lists for which neither happens are those that come from cutting a text.

A balanced text is empty, or it begins with a plain character, with a connective or with a group,
and what is behind that is balanced again.  The scan goes through a text in these pieces.

## Main definitions

* `IsPlainRun`, `IsGroup` — the texts that are one token.
* `Token.WellFormed` — the lists of tokens that come from a text.

## Main results

* `isGroup_iff` — a group is a balanced text in parentheses.
* `balanced_induction` — balanced texts, piece by piece.
* `Token.wellFormed_scan` — what a scan finds is well formed.
* `Token.scan_join` — a scan finds the tokens of a well-formed list again.
* `Token.tokenize_eq_ok_iff` — the tokens of a text are the well-formed list that joins to it.
* `Token.tokenize_join_inverse` — **cutting a text and joining tokens are inverse.**
-/

namespace Sentential

/-! ### Texts that are one token -/

/-- A run of plain characters, of which there is at least one. -/
def IsPlainRun (run : List Char) : Prop := run ≠ [] ∧ ∀ c ∈ run, isSpecial c = false

/-- A group is a balanced text that begins with a `(` which is open until its end. -/
structure IsGroup (run : List Char) : Prop where
  /-- It begins with `(`. -/
  head?_eq : run.head? = some '('
  /-- It is balanced. -/
  isBalanced : balanced 0 run = true
  /-- Every prefix but the empty one and the whole text has more `(` than `)`. -/
  count_lt : ∀ p, p <+: run → p ≠ [] → p ≠ run → p.count ')' < p.count '('

instance (run : List Char) : Decidable (IsPlainRun run) :=
  decidable_of_iff (run ≠ [] ∧ run.all (fun c => !isSpecial c) = true) (by simp [IsPlainRun])

instance (run : List Char) : Decidable (IsGroup run) :=
  decidable_of_iff
    (run.head? = some '(' ∧ balanced 0 run = true ∧
      ∀ p ∈ run.inits, p ≠ [] → p ≠ run → p.count ')' < p.count '(')
    ⟨fun ⟨hhead, hbal, hlt⟩ => ⟨hhead, hbal, fun p hp => hlt p ((List.mem_inits p run).mpr hp)⟩,
      fun ⟨hhead, hbal, hlt⟩ => ⟨hhead, hbal, fun p hp => hlt p ((List.mem_inits p run).mp hp)⟩⟩

/-- A balanced text in parentheses is a group. -/
theorem isGroup_of_balanced {inner : List Char} (h : balanced 0 inner = true) :
    IsGroup ('(' :: (inner ++ [')'])) := by
  refine ⟨rfl, balanced_group h, fun p hp hne hwhole => ?_⟩
  rcases List.prefix_cons_iff.mp hp with rfl | ⟨q, rfl, hq⟩
  · exact absurd rfl hne
  -- what is behind the `(` ends in front of the last `)`
  rcases List.prefix_concat_iff.mp hq with rfl | hq
  · exact absurd rfl hwhole
  · have hle := (balanced_zero_iff.mp h).1 q hq
    rw [List.count_cons_self, List.count_cons_of_ne (by decide)]
    omega

/-- A group is a balanced text in parentheses: if it ended with anything but a `)`, the prefix
before its end would close as much as the whole. -/
theorem IsGroup.exists_eq {run : List Char} (h : IsGroup run) :
    ∃ inner, run = '(' :: (inner ++ [')']) ∧ balanced 0 inner = true := by
  obtain ⟨hhead, hbal, hlt⟩ := h
  obtain ⟨s, rfl⟩ := List.head?_eq_some_iff.mp hhead
  have hne : '(' ≠ ')' := by decide
  rcases s.eq_nil_or_concat' with rfl | ⟨inner, c, rfl⟩
  · cases hbal
  have hinside : ∀ q, q <+: inner → q.count ')' ≤ q.count '(' := by
    intro q hq
    have hbegin : '(' :: q <+: '(' :: (inner ++ [c]) :=
      (List.prefix_cons_inj _).mpr (hq.trans (List.prefix_append _ _))
    have hshort : '(' :: q ≠ '(' :: (inner ++ [c]) := by
      intro heq
      have hlength := hq.length_le
      rw [List.cons.inj heq |>.2, List.length_append, List.length_singleton] at hlength
      omega
    have hmore := hlt _ hbegin (List.cons_ne_nil _ _) hshort
    rw [List.count_cons_self, List.count_cons_of_ne hne] at hmore
    omega
  have hinner := hinside inner List.prefix_rfl
  have hcount := (balanced_zero_iff.mp hbal).2
  obtain rfl : c = ')' := by
    by_contra hclose
    have hnil : [c].count ')' = 0 := List.count_eq_zero_of_not_mem (by simpa using Ne.symm hclose)
    rw [List.count_cons_self, List.count_cons_of_ne hne, List.count_append, List.count_append,
      hnil] at hcount
    omega
  rw [count_open_group, count_close_group, Nat.add_right_cancel_iff] at hcount
  exact ⟨inner, rfl, balanced_zero_iff.mpr ⟨hinside, hcount⟩⟩

/-- **A group is a balanced text in parentheses.** -/
theorem isGroup_iff {run : List Char} :
    IsGroup run ↔ ∃ inner, run = '(' :: (inner ++ [')']) ∧ balanced 0 inner = true := by
  constructor
  · exact IsGroup.exists_eq
  · rintro ⟨inner, rfl, hinner⟩
    exact isGroup_of_balanced hinner

theorem IsGroup.not_isPlainRun {run : List Char} (h : IsGroup run) : ¬ IsPlainRun run := by
  rintro ⟨-, hplain⟩
  have hopen := hplain '(' (List.mem_of_mem_head? h.head?_eq)
  exact absurd hopen (by decide)

/-! ### Balanced texts, piece by piece -/

/-- A text that closes what was open falls apart behind the `)` that closes the outermost of these
parentheses. -/
theorem exists_of_balanced_succ {s : List Char} : ∀ {d : Nat}, balanced (d + 1) s = true →
    ∃ inner rest, s = inner ++ ')' :: rest ∧ balanced d inner = true ∧ balanced 0 rest = true := by
  induction s with
  | nil =>
    intro d h
    cases h
  | cons c s ih =>
    intro d h
    by_cases hopen : c = '('
    · subst hopen
      obtain ⟨inner, rest, rfl, hinner, hrest⟩ := ih (d := d + 1) h
      exact ⟨'(' :: inner, rest, rfl, hinner, hrest⟩
    by_cases hclose : c = ')'
    · subst hclose
      cases d with
      | zero => exact ⟨[], s, rfl, rfl, h⟩
      | succ d =>
        obtain ⟨inner, rest, rfl, hinner, hrest⟩ := ih (d := d) h
        exact ⟨')' :: inner, rest, rfl, hinner, hrest⟩
    · rw [balanced_cons_of_ne hopen hclose] at h
      obtain ⟨inner, rest, rfl, hinner, hrest⟩ := ih h
      exact ⟨c :: inner, rest, rfl, by rwa [balanced_cons_of_ne hopen hclose], hrest⟩

/-- **Balanced texts, piece by piece.**  What holds of the empty text holds of all balanced texts
if it is kept when a plain character, a connective or a group is put in front. -/
@[elab_as_elim]
theorem balanced_induction {motive : List Char → Prop} (nil : motive [])
    (plain : ∀ c s, isSpecial c = false → motive s → motive (c :: s))
    (symbol : ∀ (k : Connective) s, motive s → motive (k.symbol :: s))
    (group : ∀ inner s, balanced 0 inner = true → motive s → motive ('(' :: (inner ++ ')' :: s)))
    (s : List Char) (h : balanced 0 s = true) : motive s := by
  induction hn : s.length using Nat.strongRecOn generalizing s with
  | ind n ih =>
    subst hn
    cases s with
    | nil => exact nil
    | cons c s =>
      by_cases hopen : c = '('
      · subst hopen
        obtain ⟨inner, rest, rfl, hinner, hrest⟩ := exists_of_balanced_succ (d := 0) h
        have hshort : rest.length < ('(' :: (inner ++ ')' :: rest)).length := by
          simp only [List.length_cons, List.length_append]
          omega
        exact group inner rest hinner (ih _ hshort rest hrest rfl)
      have hclose : c ≠ ')' := by
        rintro rfl
        cases h
      rw [balanced_cons_of_ne hopen hclose] at h
      have hrest := ih s.length (Nat.lt_succ_self _) s h rfl
      rcases exists_symbol_or_plain hopen hclose with ⟨k, rfl⟩ | hplain
      · exact symbol k s hrest
      · exact plain c s hplain hrest

namespace Token

/-! ### Well-formed lists -/

/-- Whether a token is a run of plain characters. -/
def IsPlain : Token → Prop
  | .operator _ => False
  | .text run => IsPlainRun run

/-- Whether a token is a connective, a run of plain characters or a group. -/
def IsPiece : Token → Prop
  | .operator _ => True
  | .text run => IsPlainRun run ∨ IsGroup run

/-- A list of tokens that comes from a text. -/
structure WellFormed (tokens : List Token) : Prop where
  /-- The texts among the tokens are runs of plain characters and groups. -/
  isPiece : ∀ t ∈ tokens, t.IsPiece
  /-- No two runs of plain characters stand side by side. -/
  apart : tokens.IsChain fun t u => ¬ (t.IsPlain ∧ u.IsPlain)

instance : DecidablePred IsPlain
  | .operator _ => inferInstanceAs (Decidable False)
  | .text run => inferInstanceAs (Decidable (IsPlainRun run))

instance : DecidablePred IsPiece
  | .operator _ => inferInstanceAs (Decidable True)
  | .text run => inferInstanceAs (Decidable (IsPlainRun run ∨ IsGroup run))

instance (tokens : List Token) : Decidable (WellFormed tokens) :=
  decidable_of_iff
    ((∀ t ∈ tokens, t.IsPiece) ∧ tokens.IsChain fun t u => ¬ (t.IsPlain ∧ u.IsPlain))
    ⟨fun ⟨hpiece, hapart⟩ => ⟨hpiece, hapart⟩, fun ⟨hpiece, hapart⟩ => ⟨hpiece, hapart⟩⟩

theorem wellFormed_nil : WellFormed [] where
  isPiece := fun _ h => absurd h List.not_mem_nil
  apart := .nil

theorem wellFormed_cons_iff {t : Token} {tokens : List Token} :
    WellFormed (t :: tokens) ↔
      t.IsPiece ∧ (∀ u ∈ tokens.head?, ¬ (t.IsPlain ∧ u.IsPlain)) ∧ WellFormed tokens := by
  constructor
  · rintro ⟨hpiece, hapart⟩
    obtain ⟨hhead, htail⟩ := List.isChain_cons.mp hapart
    exact ⟨hpiece t List.mem_cons_self, hhead,
      fun u hu => hpiece u (List.mem_cons_of_mem t hu), htail⟩
  · rintro ⟨ht, hhead, hpiece, hapart⟩
    exact ⟨List.forall_mem_cons.mpr ⟨ht, hpiece⟩, List.isChain_cons.mpr ⟨hhead, hapart⟩⟩

/-- A connective or a group can stand in front of any tokens. -/
theorem WellFormed.cons {t : Token} {tokens : List Token} (h : WellFormed tokens)
    (hpiece : t.IsPiece) (hplain : ¬ t.IsPlain) : WellFormed (t :: tokens) :=
  wellFormed_cons_iff.mpr ⟨hpiece, fun _ _ hboth => hplain hboth.1, h⟩

/-- The run that has been read can stand in front of tokens that do not begin with another. -/
theorem WellFormed.flush_append {run : List Char} {tokens : List Token} (h : WellFormed tokens)
    (hrun : ∀ c ∈ run, isSpecial c = false) (hhead : ∀ u ∈ tokens.head?, ¬ u.IsPlain) :
    WellFormed (flush run ++ tokens) := by
  cases run with
  | nil => exact h
  | cons c run =>
    have hplain : IsPlainRun (c :: run).reverse :=
      ⟨by simp, fun d hd => hrun d (List.mem_reverse.mp hd)⟩
    exact wellFormed_cons_iff.mpr ⟨.inl hplain, fun u hu hboth => hhead u hu hboth.2, h⟩

/-! ### Cutting and joining -/

/-- **What a scan of a balanced text finds is well formed**, if the run that was read before is
plain. -/
theorem wellFormed_scan {s : List Char} (h : balanced 0 s = true) :
    ∀ run : List Char, (∀ c ∈ run, isSpecial c = false) → WellFormed (scan 0 run s) := by
  refine balanced_induction ?nil ?plain ?symbol ?group s h
  case nil =>
    intro run hrun
    have hflush := wellFormed_nil.flush_append hrun fun u hu => by cases hu
    rwa [List.append_nil] at hflush
  case plain =>
    intro c s hplain ih run hrun
    rw [scan_plain hplain]
    exact ih (c :: run) (List.forall_mem_cons.mpr ⟨hplain, hrun⟩)
  case symbol =>
    intro k s ih run hrun
    rw [scan_symbol]
    have hrest := (ih [] (List.forall_mem_nil _)).cons (t := .operator k) trivial id
    exact hrest.flush_append hrun fun u hu => by
      obtain rfl := Option.some.inj hu
      exact id
  case group =>
    intro inner s hinner ih run hrun
    rw [scan_open_zero, scan_append_close hinner]
    have hgroup : IsGroup ('(' :: (inner ++ [')'])) := isGroup_of_balanced hinner
    have hrest := (ih [] (List.forall_mem_nil _)).cons (t := .text ('(' :: (inner ++ [')'])))
      (.inr hgroup) hgroup.not_isPlainRun
    exact hrest.flush_append hrun fun u hu => by
      obtain rfl := Option.some.inj hu
      exact hgroup.not_isPlainRun

/-- Plain characters join the run. -/
theorem scan_plain_append {s : List Char} (h : ∀ c ∈ s, isSpecial c = false) :
    ∀ run t : List Char, scan 0 run (s ++ t) = scan 0 (s.reverse ++ run) t := by
  induction s with
  | nil => intro run t; rfl
  | cons c s ih =>
    intro run t
    obtain ⟨hc, hs⟩ := List.forall_mem_cons.mp h
    rw [List.cons_append, scan_plain hc, ih hs, List.reverse_cons, List.append_assoc,
      List.singleton_append]

/-- **A scan finds the tokens of a well-formed list again**, behind the run that was read before.
If the list begins with plain characters there was none, or they would have joined it. -/
theorem scan_join {tokens : List Token} (h : WellFormed tokens) :
    ∀ run : List Char, (∀ t ∈ tokens.head?, t.IsPlain → run = []) →
      scan 0 run (join tokens) = flush run ++ tokens := by
  induction tokens with
  | nil =>
    intro run _
    rw [join_nil, scan_nil, List.append_nil]
  | cons t tokens ih =>
    intro run hrun
    obtain ⟨hpiece, hhead, htokens⟩ := wellFormed_cons_iff.mp h
    have hagain : scan 0 [] (join tokens) = tokens := ih htokens [] fun _ _ _ => rfl
    cases t with
    | operator k =>
      rw [join_cons, chars, List.singleton_append, scan_symbol, hagain]
    | text piece =>
      rcases hpiece with hplain | hgroup
      · obtain rfl := hrun (.text piece) rfl hplain
        have hnext : ∀ u ∈ tokens.head?, u.IsPlain → piece.reverse = [] :=
          fun u hu hu' => absurd ⟨hplain, hu'⟩ (hhead u hu)
        have hflush : flush piece.reverse = [.text piece] := by
          rw [flush, List.isEmpty_reverse, List.isEmpty_eq_false_iff.mpr hplain.1,
            List.reverse_reverse]
          rfl
        rw [join_cons, chars, scan_plain_append hplain.2, List.append_nil, ih htokens _ hnext,
          hflush]
        rfl
      · obtain ⟨inner, rfl, hinner⟩ := isGroup_iff.mp hgroup
        rw [join_cons, chars, List.cons_append, scan_open_zero, List.append_assoc,
          List.singleton_append, scan_append_close hinner, hagain]
        rfl

theorem balanced_join {tokens : List Token} (h : ∀ t ∈ tokens, t.IsPiece) :
    balanced 0 (join tokens) = true := by
  induction tokens with
  | nil => rfl
  | cons t tokens ih =>
    obtain ⟨hpiece, hrest⟩ := List.forall_mem_cons.mp h
    have hchars : balanced 0 t.chars = true := by
      cases t with
      | operator k => exact balanced_symbol_cons k 0 []
      | text piece =>
        rcases hpiece with hplain | hgroup
        · exact balanced_of_plain hplain.2
        · obtain ⟨inner, rfl, hinner⟩ := isGroup_iff.mp hgroup
          exact balanced_group hinner
    rw [join_cons, ← Nat.zero_add 0, balanced_append hchars, ih hrest]

theorem tokenize_eq_ok_iff_balanced {s : List Char} {tokens : List Token} :
    tokenize s = .ok tokens ↔ balanced 0 s = true ∧ scan 0 [] s = tokens := by
  rw [tokenize_eq, ← bracketFault?_eq_none_iff s 0 0]
  cases bracketFault? 0 0 s <;> simp

/-- **The tokens of a text are the well-formed list that joins to it.** -/
theorem tokenize_eq_ok_iff {s : List Char} {tokens : List Token} :
    tokenize s = .ok tokens ↔ WellFormed tokens ∧ join tokens = s := by
  rw [tokenize_eq_ok_iff_balanced]
  constructor
  · rintro ⟨hbal, rfl⟩
    exact ⟨wellFormed_scan hbal [] (List.forall_mem_nil _), join_scan s 0 []⟩
  · rintro ⟨h, rfl⟩
    exact ⟨balanced_join h.isPiece, scan_join h [] fun _ _ _ => rfl⟩

/-- **Cutting a text and joining tokens are inverse.**  A text is cut exactly if no prefix of it
closes more than was open and the whole text closes everything.  Its tokens are well formed then
and join to the text again, and every well-formed list of tokens is what its text is cut into. -/
theorem tokenize_join_inverse :
    (∀ s : List Char,
      ((∃ tokens, tokenize s = .ok tokens) ↔
        (∀ p, p <+: s → p.count ')' ≤ p.count '(') ∧ s.count ')' = s.count '(') ∧
      ∀ tokens, tokenize s = .ok tokens → WellFormed tokens ∧ join tokens = s) ∧
    ∀ tokens, WellFormed tokens → tokenize (join tokens) = .ok tokens := by
  refine ⟨fun s => ⟨?_, fun tokens => tokenize_eq_ok_iff.mp⟩,
    fun tokens h => tokenize_eq_ok_iff.mpr ⟨h, rfl⟩⟩
  simp only [tokenize_eq_ok_iff_balanced, exists_and_left, exists_eq', and_true,
    balanced_zero_iff]

/-- The group in `¬p(q)∧r` follows a run of plain characters, and is a token of its own.  The text
`p)(q` has as many `)` as `(`, but it is not cut, and the tokens `p` and `q` side by side do not
come from any text. -/
theorem tokenize_join_inverse_side_by_side :
    tokenize "¬p(q)∧r".toList = .ok [.operator .not, .text ['p'], .text ['(', 'q', ')'],
        .operator (.binary .and), .text ['r']] ∧
      (¬ ∃ tokens, tokenize "p)(q".toList = .ok tokens) ∧
      ∀ s, tokenize s ≠ .ok [.text ['p'], .text ['q']] := by
  obtain ⟨hcut, hjoin⟩ := tokenize_join_inverse
  refine ⟨?_, ?_, fun s hs => ?_⟩
  · exact hjoin [.operator .not, .text ['p'], .text ['(', 'q', ')'], .operator (.binary .and),
      .text ['r']] (by decide)
  · rw [(hcut "p)(q".toList).1]
    rintro ⟨hbegin, -⟩
    have hclose := hbegin ['p', ')'] ⟨['(', 'q'], rfl⟩
    exact absurd hclose (by decide)
  · have hwell := ((hcut s).2 _ hs).1
    exact absurd hwell (by decide)

end Token

end Sentential
