import Sentential.Proofs.TopLevel
import Sentential.Reading.Parse

/-!
# One level of a text

What the reader does on a single level, told without tokens: a text that is not a run
of plain characters is split at one of the connectives at its top level, which is
looser than all that remain at the top level of the two sides.

## Main definitions

* `Wrapped u s` — `s` is `u`, or `u` in one pair of parentheses.

## Main results

* `Token.level_le_of_mainConnective?` — the main connective is a loosest one.
* `Shape.ofTokens_negation`, `Shape.ofTokens_binary` — the splits, from the parts.
* `Shape.ofChars_eq_ok_atom`, `Shape.ofChars_eq_ok_negation`, `Shape.ofChars_eq_ok_binary`
  — what a text was when a level of it was read as an atom, a negation or a binary
  connective.
-/

namespace Sentential

namespace Token

/-! ### The main connective -/

theorem pairwise_level_loosestFirst :
    Connective.loosestFirst.Pairwise fun k k' => k'.level ≤ k.level := by decide

/-- The main connective is one of the tokens, and none of them is looser. -/
theorem level_le_of_mainConnective? {tokens : List Token} {k : Connective}
    (h : mainConnective? tokens = some k) :
    .operator k ∈ tokens ∧ ∀ t ∈ tokens, t.level ≤ k.level := by
  obtain ⟨hk, tried, untried, heq, htried⟩ := List.find?_eq_some_iff_append.mp h
  refine ⟨by simpa using hk, ?_⟩
  rintro (k' | run) ht
  · have hpair := pairwise_level_loosestFirst
    have hmem := Connective.mem_loosestFirst k'
    rw [heq] at hpair hmem
    rcases List.mem_append.mp hmem with hk' | hk'
    · exact absurd ht (by simpa using htried k' hk')
    rcases List.mem_cons.mp hk' with rfl | hk'
    · exact Nat.le_refl _
    · exact (List.pairwise_cons.mp (List.pairwise_append.mp hpair).2.1).1 k' hk'
  · exact Nat.zero_le _

/-- A connective looser than all others among the tokens is the main one. -/
theorem mainConnective?_eq_some {tokens : List Token} {k : Connective}
    (hmem : .operator k ∈ tokens)
    (hothers : ∀ k', .operator k' ∈ tokens → k' = k ∨ k'.level < k.level) :
    mainConnective? tokens = some k := by
  cases hmain : mainConnective? tokens with
  | none =>
    have := List.find?_eq_none.mp hmain k (Connective.mem_loosestFirst k)
    exact absurd hmem (by simpa using this)
  | some k' =>
    obtain ⟨hmem', hle⟩ := level_le_of_mainConnective? hmain
    rcases hothers k' hmem' with rfl | hlt
    · rfl
    · exact absurd (hle _ hmem) (Nat.not_le.mpr hlt)

/-- The text before a connective that has none of its kind in front of it. -/
theorem before_append {k : Connective} {ts : List Token} (h : .operator k ∉ ts)
    (ts' : List Token) : before k (ts ++ .operator k :: ts') = join ts := by
  have hall : ∀ t ∈ ts, (t != .operator k) = true := by
    intro t ht
    simp only [bne_iff_ne]
    rintro rfl
    exact h ht
  rw [before, List.takeWhile_append_of_pos hall, List.takeWhile_cons_of_neg (by simp),
    List.append_nil]

/-- The text behind such a connective. -/
theorem after_append {k : Connective} {ts : List Token} (h : .operator k ∉ ts)
    (ts' : List Token) : after k (ts ++ .operator k :: ts') = join ts' := by
  have hall : ∀ t ∈ ts, (t != .operator k) = true := by
    intro t ht
    simp only [bne_iff_ne]
    rintro rfl
    exact h ht
  rw [after, List.dropWhile_append_of_pos hall, List.dropWhile_cons_of_neg (by simp)]
  rfl

/-- A connective competes with another exactly if a second one of its level is on
either side. -/
theorem isAmbiguous_append {k : Connective} (ts ts' : List Token) :
    isAmbiguous k (ts ++ .operator k :: ts') = false ↔
      (∀ t ∈ ts, t.level ≠ k.level) ∧ ∀ t ∈ ts', t.level ≠ k.level := by
  simp only [isAmbiguous, List.countP_append, List.countP_cons, decide_eq_false_iff_not]
  have hself : (Token.level (.operator k) == k.level) = true := by simp [level]
  rw [hself, if_pos rfl]
  have hleft := List.countP_eq_zero (p := fun t : Token => t.level == k.level) (l := ts)
  have hright := List.countP_eq_zero (p := fun t : Token => t.level == k.level) (l := ts')
  simp only [beq_iff_eq] at hleft hright
  rw [← hleft, ← hright]
  omega

end Token

namespace Shape

open Token

/-! ### From the parts -/

/-- A negation in front of tokens without binary connectives is split off. -/
theorem ofTokens_negation {ts : List Token} (h : ∀ t ∈ ts, t.level < 2) :
    ofTokens (.operator .not :: ts) = .ok (.negation (join ts)) := by
  have hmain : mainConnective? (.operator .not :: ts) = some .not := by
    refine mainConnective?_eq_some List.mem_cons_self fun k hk => ?_
    rcases List.mem_cons.mp hk with hk | hk
    · exact Or.inl (Token.operator.inj hk)
    · have := h _ hk
      rcases k with _ | _ | _ | _ | _ <;> simp_all [Token.level, Connective.level]
  have hbefore : before .not ([] ++ .operator .not :: ts) = join [] :=
    before_append List.not_mem_nil ts
  have hafter : after .not ([] ++ .operator .not :: ts) = join ts :=
    after_append List.not_mem_nil ts
  rw [List.nil_append] at hbefore hafter
  simp only [ofTokens, hmain, hbefore, hafter, join_nil, List.isEmpty_nil, if_true]

/-- A binary connective between tokens of lower levels is where they are split. -/
theorem ofTokens_binary {op : BinaryOp} {ts ts' : List Token}
    (hts : ∀ t ∈ ts, t.level < (Connective.binary op).level)
    (hts' : ∀ t ∈ ts', t.level < (Connective.binary op).level) :
    ofTokens (ts ++ .operator (.binary op) :: ts') = .ok (.binary op (join ts) (join ts')) := by
  have hmain : mainConnective? (ts ++ .operator (.binary op) :: ts') = some (.binary op) := by
    refine mainConnective?_eq_some (by simp) fun k hk => ?_
    rcases List.mem_append.mp hk with hk | hk
    · exact Or.inr (hts _ hk)
    rcases List.mem_cons.mp hk with hk | hk
    · exact Or.inl (Token.operator.inj hk)
    · exact Or.inr (hts' _ hk)
  have hnot : Token.operator (.binary op) ∉ ts := fun hmem => Nat.lt_irrefl _ (hts _ hmem)
  have hamb : isAmbiguous (.binary op) (ts ++ .operator (.binary op) :: ts') = false :=
    (isAmbiguous_append ts ts').mpr
      ⟨fun t ht => Nat.ne_of_lt (hts t ht), fun t ht => Nat.ne_of_lt (hts' t ht)⟩
  simp only [ofTokens, hmain, hamb, before_append hnot, after_append hnot, Bool.false_eq_true,
    if_false]

/-- A run of plain characters is an atom, unless an outer pair was dropped from around it. -/
theorem ofChars_of_plain_unwrap {s : List Char} (hne : unwrap s ≠ [])
    (hplain : ∀ c ∈ unwrap s, isSpecial c = false) :
    ofChars s = if (unwrap? s).isSome then .error .parenthesizedAtom
      else .ok (.atom (atomOfChars s)) := by
  have hs : s.isEmpty = false := by
    cases s with
    | nil => exact absurd rfl hne
    | cons => rfl
  have hall : (unwrap s).all isSpecial = false := by
    obtain ⟨c, hc⟩ := List.exists_mem_of_ne_nil _ hne
    exact List.all_eq_false.mpr ⟨c, hc, by simp [hplain c hc]⟩
  have hany : (unwrap s).any isSpecial = false :=
    List.any_eq_false.mpr fun c hc => by simp [hplain c hc]
  simp only [ofChars, hs, hall, hany, Bool.false_eq_true, if_false]

theorem ofChars_of_plain {s : List Char} (hne : s ≠ []) (h : ∀ c ∈ s, isSpecial c = false) :
    ofChars s = .ok (.atom (atomOfChars s)) := by
  have hwrap : unwrap? s = none := unwrap?_of_plain h
  have hself : unwrap s = s := unwrap_eq_self hwrap
  rw [ofChars_of_plain_unwrap (by rwa [hself]) (by rwa [hself]), hwrap]
  rfl

/-- A run of plain characters takes no parentheses. -/
theorem ofChars_group_of_plain {s : List Char} (hne : s ≠ [])
    (h : ∀ c ∈ s, isSpecial c = false) :
    ofChars ('(' :: (s ++ [')'])) = .error .parenthesizedAtom := by
  have hbal : balanced 0 s = true := balanced_of_plain h
  have hinner : unwrap ('(' :: (s ++ [')'])) = s := unwrap_group hbal
  rw [ofChars_of_plain_unwrap (by rwa [hinner]) (by rwa [hinner]), unwrap?_group hbal]
  rfl

/-- A text that is neither plain nor without plain characters is tokenised. -/
theorem ofChars_of_mixed {s : List Char} (hplain : ∃ c ∈ unwrap s, isSpecial c = false)
    (hspecial : ∃ c ∈ unwrap s, isSpecial c = true) :
    ofChars s = (tokenize (unwrap s)).bind ofTokens := by
  have hne : s.isEmpty = false := by
    obtain ⟨c, hc, -⟩ := hplain
    cases s with
    | nil => simp [unwrap] at hc
    | cons => rfl
  have hall : (unwrap s).all isSpecial = false := by
    obtain ⟨c, hc, hcp⟩ := hplain
    exact List.all_eq_false.mpr ⟨c, hc, by simp [hcp]⟩
  have hany : (unwrap s).any isSpecial = true := by
    obtain ⟨c, hc, hcs⟩ := hspecial
    exact List.any_eq_true.mpr ⟨c, hc, hcs⟩
  simp only [ofChars, hne, hall, hany, Bool.false_eq_true, if_false, if_true]
  cases tokenize (unwrap s) <;> rfl

/-- If its parentheses are balanced, it is read by its tokens. -/
theorem ofChars_of_balanced {s : List Char} (hbal : balanced 0 (unwrap s) = true)
    (hplain : ∃ c ∈ unwrap s, isSpecial c = false) (hspecial : ∃ c ∈ unwrap s, isSpecial c = true) :
    ofChars s = ofTokens (scan 0 [] (unwrap s)) := by
  rw [ofChars_of_mixed hplain hspecial, tokenize_eq, (bracketFault?_eq_none_iff _ 0 0).mpr hbal]
  rfl

end Shape

/-! ### Back to the parts -/

/-- A text, as it is or in one pair of parentheses. -/
inductive Wrapped (u : List Char) : List Char → Prop where
  /-- The text as it is. -/
  | bare : Wrapped u u
  /-- The text in parentheses. -/
  | group : Wrapped u ('(' :: (u ++ [')']))

/-- A text is its unwrapped form, or that form in parentheses. -/
theorem wrapped_unwrap (s : List Char) : Wrapped (unwrap s) s := by
  unfold unwrap
  cases h : unwrap? s with
  | none => exact .bare
  | some m =>
    rw [Option.getD_some, eq_group_of_unwrap? h]
    exact .group

namespace Shape

open Token

theorem ofTokens_ne_atom (tokens : List Token) (f : Formula) :
    ofTokens tokens ≠ .ok (.atom f) := by
  rw [ofTokens]
  split
  · simp
  · split <;> simp
  · split <;> simp

/-- All that can be wrong with a text whose parentheses are balanced. -/
theorem eq_of_ofTokens_error {tokens : List Token} {e : ParseError}
    (h : ofTokens tokens = .error e) :
    e = .unrecognizedForm ∨ e = .negationSyntax ∨ ∃ op, e = .ambiguousOperator op := by
  rw [ofTokens] at h
  split at h
  · exact .inl (Except.error.inj h).symm
  · split at h
    · cases h
    · exact .inr (.inl (Except.error.inj h).symm)
  · rename_i op _
    split at h
    · exact .inr (.inr ⟨op, (Except.error.inj h).symm⟩)
    · cases h

/-- The tokens of a balanced text are split at a negation only if it comes first and
there is no binary connective. -/
theorem eq_of_ofTokens_negation {u t : List Char} (hbal : balanced 0 u = true)
    (h : ofTokens (scan 0 [] u) = .ok (.negation t)) :
    u = Connective.not.symbol :: t ∧ TopLevelLT 2 t := by
  cases hmain : mainConnective? (scan 0 [] u) with
  | none => simp [ofTokens, hmain] at h
  | some k =>
    cases k with
    | binary op => simp only [ofTokens, hmain] at h; split at h <;> simp at h
    | not =>
      simp only [ofTokens, hmain] at h
      split at h
      · rename_i hempty
        obtain ⟨hmem, hle⟩ := level_le_of_mainConnective? hmain
        obtain ⟨ts, ts', hcut, hnot⟩ := List.eq_append_cons_of_mem hmem
        obtain ⟨l, r, rfl, hl, hr, rfl, rfl⟩ := exists_of_scan_eq hbal hcut
        rw [hcut] at h hempty hle
        rw [before_append hnot, join_scan, List.isEmpty_iff] at hempty
        rw [after_append hnot, join_scan] at h
        simp only [List.reverse_nil, List.nil_append] at h hempty
        subst hempty
        injection h with h
        injection h with h
        subst h
        refine ⟨rfl, fun v hv => ?_⟩
        exact Nat.lt_succ_of_le (hle v (by simp [hv]))
      · simp at h

/-- The tokens of a balanced text are split at a binary connective only if nothing as
loose is left at the top level of either side. -/
theorem eq_of_ofTokens_binary {u l r : List Char} {op : BinaryOp} (hbal : balanced 0 u = true)
    (h : ofTokens (scan 0 [] u) = .ok (.binary op l r)) :
    u = l ++ op.symbol :: r ∧ balanced 0 l = true ∧ TopLevelLT (Connective.binary op).level l ∧
      TopLevelLT (Connective.binary op).level r := by
  cases hmain : mainConnective? (scan 0 [] u) with
  | none => simp [ofTokens, hmain] at h
  | some k =>
    cases k with
    | not => simp only [ofTokens, hmain] at h; split at h <;> simp at h
    | binary op' =>
      simp only [ofTokens, hmain] at h
      split at h
      · simp at h
      · rename_i hamb
        obtain ⟨hmem, hle⟩ := level_le_of_mainConnective? hmain
        obtain ⟨ts, ts', hcut, hnot⟩ := List.eq_append_cons_of_mem hmem
        obtain ⟨l', r', rfl, hl, hr, rfl, rfl⟩ := exists_of_scan_eq hbal hcut
        rw [hcut] at h hamb hle
        rw [Bool.not_eq_true, isAmbiguous_append] at hamb
        rw [before_append hnot, after_append hnot, join_scan, join_scan] at h
        simp only [List.reverse_nil, List.nil_append] at h
        injection h with h
        injection h with hop hleft hright
        subst hop hleft hright
        refine ⟨rfl, hl, fun v hv => ?_, fun v hv => ?_⟩
        · exact Nat.lt_of_le_of_ne (hle v (by simp [hv])) (hamb.1 v hv)
        · exact Nat.lt_of_le_of_ne (hle v (by simp [hv])) (hamb.2 v hv)

/-- A text that is read is a run of plain characters, or balanced and split by its
tokens. -/
theorem ofChars_eq_ok {s : List Char} {shape : Shape} (h : ofChars s = .ok shape) :
    (s ≠ [] ∧ (∀ c ∈ s, isSpecial c = false) ∧ shape = .atom (atomOfChars s)) ∨
      (balanced 0 (unwrap s) = true ∧ ofTokens (scan 0 [] (unwrap s)) = .ok shape) := by
  rw [ofChars] at h
  split at h
  · simp at h
  rename_i hne
  split at h
  · simp at h
  split at h
  · -- there is a special character, so the text is tokenised
    right
    rw [tokenize_eq] at h
    cases hfault : bracketFault? 0 0 (unwrap s) with
    | some fault => simp [hfault] at h
    | none => exact ⟨(bracketFault?_eq_none_iff _ 0 0).mp hfault, by simpa [hfault] using h⟩
  · rename_i hany
    split at h
    · simp at h
    rename_i hwrap
    left
    rw [Bool.not_eq_true, Option.isSome_eq_false_iff, Option.isNone_iff_eq_none] at hwrap
    have hunwrap : unwrap s = s := unwrap_eq_self hwrap
    rw [hunwrap, Bool.not_eq_true, List.any_eq_false] at hany
    refine ⟨by simpa using hne, fun c hc => by simpa using hany c hc, ?_⟩
    injection h with h
    exact h.symm

/-- **A level is read as an atom** only if it is a run of plain characters. -/
theorem ofChars_eq_ok_atom {s : List Char} {f : Formula} (h : ofChars s = .ok (.atom f)) :
    s ≠ [] ∧ (∀ c ∈ s, isSpecial c = false) ∧ f = atomOfChars s := by
  rcases ofChars_eq_ok h with ⟨hne, hplain, hf⟩ | ⟨-, htokens⟩
  · injection hf with hf
    exact ⟨hne, hplain, hf⟩
  · exact absurd htokens (ofTokens_ne_atom _ _)

/-- **A level is read as a negation** only if it is one, as it is or in parentheses, and
no binary connective stands at the top level of the operand. -/
theorem ofChars_eq_ok_negation {s t : List Char} (h : ofChars s = .ok (.negation t)) :
    Wrapped (Connective.not.symbol :: t) s ∧ TopLevelLT 2 t := by
  rcases ofChars_eq_ok h with ⟨-, -, hf⟩ | ⟨hbal, htokens⟩
  · simp at hf
  · obtain ⟨hu, ht⟩ := eq_of_ofTokens_negation hbal htokens
    exact ⟨hu ▸ wrapped_unwrap s, ht⟩

/-- **A level is read as a binary connective** only if it is one between two texts, as
it is or in parentheses, with nothing as loose at the top levels of the two. -/
theorem ofChars_eq_ok_binary {s l r : List Char} {op : BinaryOp}
    (h : ofChars s = .ok (.binary op l r)) :
    Wrapped (l ++ op.symbol :: r) s ∧ balanced 0 l = true ∧
      TopLevelLT (Connective.binary op).level l ∧ TopLevelLT (Connective.binary op).level r := by
  rcases ofChars_eq_ok h with ⟨-, -, hf⟩ | ⟨hbal, htokens⟩
  · simp at hf
  · obtain ⟨hu, hl, htl, htr⟩ := eq_of_ofTokens_binary hbal htokens
    exact ⟨hu ▸ wrapped_unwrap s, hl, htl, htr⟩

end Shape

end Sentential
