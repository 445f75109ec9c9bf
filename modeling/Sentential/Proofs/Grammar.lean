import Sentential.Proofs.OneLevel
import Sentential.Proofs.Settled

/-!
# The grammar of formulas

The reader works without a grammar: it drops a pair of parentheses, cuts a text into
tokens and splits it at the loosest of them.  What it accepts is nevertheless the
language of a small grammar, in which an atom takes no parentheses, everything else
takes one pair, and connectives of one level do not follow each other.

## Main definitions

* `Category`, `Derives` — the grammar, with the formula that a text stands for.
* `Shape.Denotes` — the formulas of a level whose operands are derived.

## Main results

* `derives_iff_denotes` — a text is derived exactly if its level is read and its
  operands are derived.
* `derives_unique` — a text stands for one formula at most.
* `parse_eq_ok_iff` — **the reader accepts exactly what the grammar derives**, up to the
  depth that the limit allows.
-/

namespace Sentential

/-- What a text can be used as. -/
inductive Category where
  /-- An operand of any connective. -/
  | tight
  /-- An operand of `→` or `↔`. -/
  | operand
  /-- What can stand between parentheses. -/
  | compound
  /-- A text of its own. -/
  | whole
  deriving DecidableEq, Repr

/-- `Derives k s f` says that the text `s` can be used as a `k` and then stands for the
formula `f`. -/
inductive Derives : Category → List Char → Formula → Prop where
  /-- The letter `T` is a truth value. -/
  | letterT : Derives .tight ['T'] (.lit true)
  /-- So is the letter `F`. -/
  | letterF : Derives .tight ['F'] (.lit false)
  /-- Any other run of plain characters is a variable. -/
  | name {s : List Char} (hne : s ≠ []) (hplain : ∀ c ∈ s, isSpecial c = false)
      (hT : s ≠ ['T']) (hF : s ≠ ['F']) : Derives .tight s (.var (String.ofList s))
  /-- A negation binds tightest. -/
  | neg {s : List Char} {a : Formula} (h : Derives .tight s a) :
      Derives .tight (Connective.not.symbol :: s) (.neg a)
  /-- A compound in parentheses can be used anywhere. -/
  | group {s : List Char} {f : Formula} (h : Derives .compound s f) :
      Derives .tight ('(' :: (s ++ [')'])) f
  /-- An operand of any connective is one of `→` and `↔`. -/
  | operandTight {s : List Char} {f : Formula} (h : Derives .tight s f) : Derives .operand s f
  /-- A `∧` or `⋁` without parentheses is an operand of `→` and `↔`. -/
  | operandJunction {op : BinaryOp} {s t : List Char} {a b : Formula}
      (hop : op = .and ∨ op = .or) (hs : Derives .tight s a) (ht : Derives .tight t b) :
      Derives .operand (s ++ op.symbol :: t) (.bin op a b)
  /-- A negation can stand between parentheses. -/
  | compoundNeg {s : List Char} {a : Formula} (h : Derives .tight s a) :
      Derives .compound (Connective.not.symbol :: s) (.neg a)
  /-- So can a `∧` or `⋁`. -/
  | compoundJunction {op : BinaryOp} {s t : List Char} {a b : Formula}
      (hop : op = .and ∨ op = .or) (hs : Derives .tight s a) (ht : Derives .tight t b) :
      Derives .compound (s ++ op.symbol :: t) (.bin op a b)
  /-- And so can a `→` or `↔`. -/
  | compoundArrow {op : BinaryOp} {s t : List Char} {a b : Formula}
      (hop : op = .cond ∨ op = .iff) (hs : Derives .operand s a) (ht : Derives .operand t b) :
      Derives .compound (s ++ op.symbol :: t) (.bin op a b)
  /-- A text can be what an operand can be. -/
  | wholeTight {s : List Char} {f : Formula} (h : Derives .tight s f) : Derives .whole s f
  /-- A text can be what stands between parentheses. -/
  | wholeCompound {s : List Char} {f : Formula} (h : Derives .compound s f) : Derives .whole s f

/-! ### Derived texts -/

/-- The level that no connective at the top level of a text reaches. -/
def Category.ceiling : Category → Nat
  | .tight => 2
  | .operand => 3
  | .compound => 4
  | .whole => 4

theorem level_of_junction {op : BinaryOp} (hop : op = .and ∨ op = .or) :
    (Connective.binary op).level = 2 := by
  rcases hop with rfl | rfl <;> rfl

theorem level_of_arrow {op : BinaryOp} (hop : op = .cond ∨ op = .iff) :
    (Connective.binary op).level = 3 := by
  rcases hop with rfl | rfl <;> rfl

namespace Derives

variable {k : Category} {s : List Char} {f : Formula}

theorem isBalanced (h : Derives k s f) : balanced 0 s = true := by
  induction h with
  | letterT => rfl
  | letterF => rfl
  | name _ hplain => exact balanced_of_plain hplain
  | neg _ ih => exact ih
  | compoundNeg _ ih => exact ih
  | group _ ih => exact balanced_group ih
  | operandTight _ ih => exact ih
  | wholeTight _ ih => exact ih
  | wholeCompound _ ih => exact ih
  | operandJunction _ _ _ ihs iht => exact balanced_append_symbol ihs iht (.binary _)
  | compoundJunction _ _ _ ihs iht => exact balanced_append_symbol ihs iht (.binary _)
  | compoundArrow _ _ _ ihs iht => exact balanced_append_symbol ihs iht (.binary _)

/-- A derived text has a plain character, as it has an atom. -/
theorem exists_plain (h : Derives k s f) : ∃ c ∈ s, isSpecial c = false := by
  induction h with
  | letterT => exact ⟨'T', List.mem_cons_self, by decide⟩
  | letterF => exact ⟨'F', List.mem_cons_self, by decide⟩
  | name hne hplain =>
    obtain ⟨c, s', rfl⟩ := List.exists_cons_of_ne_nil hne
    exact ⟨c, List.mem_cons_self, hplain c List.mem_cons_self⟩
  | neg _ ih | compoundNeg _ ih =>
    obtain ⟨c, hc, hplain⟩ := ih
    exact ⟨c, List.mem_cons_of_mem _ hc, hplain⟩
  | group _ ih =>
    obtain ⟨c, hc, hplain⟩ := ih
    exact ⟨c, by simp [hc], hplain⟩
  | operandTight _ ih | wholeTight _ ih | wholeCompound _ ih => exact ih
  | operandJunction _ _ _ ihs | compoundJunction _ _ _ ihs | compoundArrow _ _ _ ihs =>
    obtain ⟨c, hc, hplain⟩ := ihs
    exact ⟨c, List.mem_append_left _ hc, hplain⟩

theorem ne_nil (h : Derives k s f) : s ≠ [] := by
  obtain ⟨c, hc, -⟩ := h.exists_plain
  exact List.ne_nil_of_mem hc

/-- All connectives at the top level of a derived text are below the ceiling. -/
theorem topLevelLT (h : Derives k s f) : TopLevelLT k.ceiling s := by
  induction h with
  | letterT => exact TopLevelLT.of_plain (by decide) (List.forall_mem_singleton.mpr (by decide))
  | letterF => exact TopLevelLT.of_plain (by decide) (List.forall_mem_singleton.mpr (by decide))
  | name _ hplain => exact TopLevelLT.of_plain (by decide) hplain
  | neg _ ih => exact TopLevelLT.symbol_cons_iff.mpr ⟨by decide, ih⟩
  | compoundNeg _ ih => exact TopLevelLT.symbol_cons_iff.mpr ⟨by decide, ih.mono (by decide)⟩
  | group h _ => exact TopLevelLT.group (by decide) h.isBalanced
  | operandTight _ ih => exact ih.mono (by decide)
  | wholeTight _ ih => exact ih.mono (by decide)
  | wholeCompound _ ih => exact ih
  | operandJunction hop hs _ ihs iht =>
    exact .append_binary hs.isBalanced ihs iht (by decide) (by rw [level_of_junction hop]; decide)
  | compoundJunction hop hs _ ihs iht =>
    exact .append_binary hs.isBalanced ihs iht (by decide) (by rw [level_of_junction hop]; decide)
  | compoundArrow hop hs _ ihs iht =>
    exact .append_binary hs.isBalanced ihs iht (by decide) (by rw [level_of_arrow hop]; decide)

/-- A text of its own without binary connectives at its top level is an operand of any
connective. -/
theorem tight_of_topLevelLT (h : Derives .whole s f) (hlt : TopLevelLT 2 s) :
    Derives .tight s f := by
  cases h with
  | wholeTight h => exact h
  | wholeCompound h =>
    cases h with
    | compoundNeg h => exact .neg h
    | compoundJunction hop hs _ =>
      have hk := hlt.level_lt_of_append hs.isBalanced
      rw [level_of_junction hop] at hk
      exact absurd hk (by decide)
    | compoundArrow hop hs _ =>
      have hk := hlt.level_lt_of_append hs.isBalanced
      rw [level_of_arrow hop] at hk
      exact absurd hk (by decide)

/-- A text of its own without `→` and `↔` at its top level is an operand of these. -/
theorem operand_of_topLevelLT (h : Derives .whole s f) (hlt : TopLevelLT 3 s) :
    Derives .operand s f := by
  cases h with
  | wholeTight h => exact .operandTight h
  | wholeCompound h =>
    cases h with
    | compoundNeg h => exact .operandTight (.neg h)
    | compoundJunction hop hs ht => exact .operandJunction hop hs ht
    | compoundArrow hop hs _ =>
      have hk := hlt.level_lt_of_append hs.isBalanced
      rw [level_of_arrow hop] at hk
      exact absurd hk (by decide)

theorem whole_of_operand (h : Derives .operand s f) : Derives .whole s f := by
  cases h with
  | operandTight h => exact .wholeTight h
  | operandJunction hop hs ht => exact .wholeCompound (.compoundJunction hop hs ht)

end Derives

/-! ### One level -/

/-- The formulas that a level stands for if its operands are derived. -/
inductive Shape.Denotes : Shape → Formula → Prop where
  /-- An atom stands for itself. -/
  | atom (f : Formula) : Denotes (.atom f) f
  /-- The operand of a negation is a text of its own. -/
  | negation {t : List Char} {a : Formula} (h : Derives .whole t a) :
      Denotes (.negation t) (.neg a)
  /-- So are those of a binary connective. -/
  | binary {op : BinaryOp} {l r : List Char} {a b : Formula} (hl : Derives .whole l a)
      (hr : Derives .whole r b) : Denotes (.binary op l r) (.bin op a b)

/-- A compound is split by its tokens into the connective it was built with and the
texts it was built from. -/
theorem Derives.exists_shape_of_compound {u : List Char} {f : Formula}
    (h : Derives .compound u f) : ∃ shape, Shape.ofTokens (Token.scan 0 [] u) = .ok shape ∧
      shape.Denotes f ∧ unwrap? u = none ∧ ∃ c ∈ u, isSpecial c = true := by
  -- the texts of the operands are the joined tokens on either side of the connective
  have hbinary : ∀ {op : BinaryOp} {s t : List Char} {a b : Formula},
      Derives .whole s a → Derives .whole t b → TopLevelLT (Connective.binary op).level s →
      TopLevelLT (Connective.binary op).level t →
      ∃ shape, Shape.ofTokens (Token.scan 0 [] (s ++ op.symbol :: t)) = .ok shape ∧
        shape.Denotes (.bin op a b) ∧ unwrap? (s ++ op.symbol :: t) = none ∧
        ∃ c ∈ s ++ op.symbol :: t, isSpecial c = true := by
    intro op s t a b hs ht hslt htlt
    have hscan : Token.scan 0 [] (s ++ op.symbol :: t)
        = Token.scan 0 [] s ++ .operator (.binary op) :: Token.scan 0 [] t :=
      Token.scan_append_symbol hs.isBalanced [] (.binary op) t
    refine ⟨.binary op s t, ?_, .binary hs ht,
      unwrap?_append hs.isBalanced hs.ne_nil (List.cons_ne_nil _ _), op.symbol, by simp,
      isSpecial_symbol (.binary op)⟩
    rw [hscan, Shape.ofTokens_binary hslt htlt, Token.join_scan, Token.join_scan]
    rfl
  cases h with
  | compoundNeg h =>
    rename_i s a
    refine ⟨.negation s, ?_, .negation (.wholeTight h), unwrap?_symbol_cons .not s,
      Connective.not.symbol, List.mem_cons_self, isSpecial_symbol .not⟩
    rw [Token.scan_symbol, Token.flush, List.isEmpty_nil, if_pos rfl, List.nil_append,
      Shape.ofTokens_negation h.topLevelLT, Token.join_scan]
    rfl
  | compoundJunction hop hs ht =>
    refine hbinary (.wholeTight hs) (.wholeTight ht) ?_ ?_
    · rw [level_of_junction hop]; exact hs.topLevelLT
    · rw [level_of_junction hop]; exact ht.topLevelLT
  | compoundArrow hop hs ht =>
    refine hbinary hs.whole_of_operand ht.whole_of_operand ?_ ?_
    · rw [level_of_arrow hop]; exact hs.topLevelLT
    · rw [level_of_arrow hop]; exact ht.topLevelLT

/-- A compound is read as it was built, with or without parentheses. -/
theorem Derives.exists_shape_of_wrapped {u s : List Char} {f : Formula}
    (h : Derives .compound u f) (hw : Wrapped u s) :
    ∃ shape, Shape.ofChars s = .ok shape ∧ shape.Denotes f := by
  obtain ⟨shape, htokens, hdenotes, hbare, hspecial⟩ := h.exists_shape_of_compound
  have hunwrap : unwrap s = u := by
    cases hw with
    | bare => exact unwrap_eq_self hbare
    | group => exact unwrap_group h.isBalanced
  refine ⟨shape, ?_, hdenotes⟩
  rw [Shape.ofChars_of_balanced, hunwrap, htokens]
  · rw [hunwrap]; exact h.isBalanced
  · rw [hunwrap]; exact h.exists_plain
  · rw [hunwrap]; exact hspecial

/-- A derived text is read, and its operands are derived. -/
theorem Derives.exists_shape {s : List Char} {f : Formula} (h : Derives .whole s f) :
    ∃ shape, Shape.ofChars s = .ok shape ∧ shape.Denotes f := by
  cases h with
  | wholeCompound h => exact h.exists_shape_of_wrapped .bare
  | wholeTight h =>
    cases h with
    | letterT => exact ⟨.atom (.lit true), rfl, .atom _⟩
    | letterF => exact ⟨.atom (.lit false), rfl, .atom _⟩
    | name hne hplain hT hF =>
      refine ⟨_, Shape.ofChars_of_plain hne hplain, ?_⟩
      rw [Shape.atomOfChars, if_neg (by simpa using hT), if_neg (by simpa using hF)]
      exact .atom _
    | neg h => exact (Derives.compoundNeg h).exists_shape_of_wrapped .bare
    | group h => exact h.exists_shape_of_wrapped .group

theorem derives_atomOfChars {s : List Char} (hne : s ≠ [])
    (hplain : ∀ c ∈ s, isSpecial c = false) : Derives .whole s (Shape.atomOfChars s) := by
  rw [Shape.atomOfChars]
  by_cases hT : s = ['T']
  · rw [hT]
    exact .wholeTight .letterT
  by_cases hF : s = ['F']
  · rw [hF]
    exact .wholeTight .letterF
  rw [if_neg (by simpa using hT), if_neg (by simpa using hF)]
  exact .wholeTight (.name hne hplain hT hF)

/-- A compound is derived with or without parentheses. -/
theorem Derives.whole_of_wrapped {u s : List Char} {f : Formula} (h : Derives .compound u f)
    (hw : Wrapped u s) : Derives .whole s f := by
  cases hw with
  | bare => exact .wholeCompound h
  | group => exact .wholeTight (.group h)

/-- A text that is read is derived if its operands are. -/
theorem derives_of_shape {s : List Char} {shape : Shape} {f : Formula}
    (h : Shape.ofChars s = .ok shape) (hdenotes : shape.Denotes f) : Derives .whole s f := by
  cases hdenotes with
  | atom f =>
    obtain ⟨hne, hplain, rfl⟩ := Shape.ofChars_eq_ok_atom h
    exact derives_atomOfChars hne hplain
  | negation ha =>
    obtain ⟨hw, hlt⟩ := Shape.ofChars_eq_ok_negation h
    exact (Derives.compoundNeg (ha.tight_of_topLevelLT hlt)).whole_of_wrapped hw
  | @binary op l r a b ha hb =>
    obtain ⟨hw, -, hlt, hlt'⟩ := Shape.ofChars_eq_ok_binary h
    refine Derives.whole_of_wrapped ?_ hw
    -- the level of the connective says what its operands can be
    cases op with
    | and =>
      exact .compoundJunction (.inl rfl) (ha.tight_of_topLevelLT hlt) (hb.tight_of_topLevelLT hlt')
    | or =>
      exact .compoundJunction (.inr rfl) (ha.tight_of_topLevelLT hlt) (hb.tight_of_topLevelLT hlt')
    | cond =>
      exact .compoundArrow (.inl rfl) (ha.operand_of_topLevelLT hlt) (hb.operand_of_topLevelLT hlt')
    | iff =>
      exact .compoundArrow (.inr rfl) (ha.operand_of_topLevelLT hlt) (hb.operand_of_topLevelLT hlt')

/-- **A text whose level is read stands for exactly the formulas that this level stands
for**, and a text whose level is not read stands for none. -/
theorem derives_iff_denotes {s : List Char} {f : Formula} :
    Derives .whole s f ↔ ∃ shape, Shape.ofChars s = .ok shape ∧ shape.Denotes f :=
  ⟨Derives.exists_shape, fun ⟨_, h, hdenotes⟩ => derives_of_shape h hdenotes⟩

/-- The same for a level that is known. -/
theorem derives_iff_of_ofChars {s : List Char} {shape : Shape} (h : Shape.ofChars s = .ok shape)
    {f : Formula} : Derives .whole s f ↔ shape.Denotes f := by
  rw [derives_iff_denotes, h]
  constructor
  · rintro ⟨shape', hshape, hdenotes⟩
    injection hshape with hshape
    exact hshape ▸ hdenotes
  · exact fun hdenotes => ⟨shape, rfl, hdenotes⟩

/-- **A text stands for one formula at most.** -/
theorem derives_unique {f : Formula} : ∀ {s : List Char} {g : Formula},
    Derives .whole s f → Derives .whole s g → f = g := by
  -- the level of the text fixes the root of both formulas and the texts of their operands
  have hlevel : ∀ {s : List Char} {f g : Formula}, Derives .whole s f → Derives .whole s g →
      ∃ shape : Shape, shape.Denotes f ∧ shape.Denotes g := by
    intro s f g hf hg
    obtain ⟨shape, h, hdf⟩ := hf.exists_shape
    obtain ⟨shape', h', hdg⟩ := hg.exists_shape
    rw [h] at h'
    injection h' with h'
    exact ⟨shape, hdf, h' ▸ hdg⟩
  induction f with
  | lit value =>
    intro s g hf hg
    obtain ⟨shape, hdf, hdg⟩ := hlevel hf hg
    cases hdf
    cases hdg
    rfl
  | var name =>
    intro s g hf hg
    obtain ⟨shape, hdf, hdg⟩ := hlevel hf hg
    cases hdf
    cases hdg
    rfl
  | neg a ih =>
    intro s g hf hg
    obtain ⟨shape, hdf, hdg⟩ := hlevel hf hg
    cases hdf with
    | atom => cases hdg; rfl
    | negation ha =>
      cases hdg with
      | negation ha' => rw [ih ha ha']
  | bin op a b iha ihb =>
    intro s g hf hg
    obtain ⟨shape, hdf, hdg⟩ := hlevel hf hg
    cases hdf with
    | atom => cases hdg; rfl
    | binary ha hb =>
      cases hdg with
      | binary ha' hb' => rw [iha ha ha', ihb hb hb']

/-! ### All levels -/

theorem Formula.depth_pos (f : Formula) : 0 < f.depth := by
  cases f <;> simp only [Formula.depth] <;> omega

theorem depth_atomOfChars (s : List Char) : (Shape.atomOfChars s).depth = 1 := by
  rw [Shape.atomOfChars]
  split
  · rfl
  · split <;> rfl

theorem Wrapped.subset {u s : List Char} (h : Wrapped u s) : u ⊆ s := by
  cases h with
  | bare => exact fun _ hc => hc
  | group => exact fun _ hc => List.mem_cons_of_mem _ (List.mem_append_left _ hc)

/-- Reading a text again from its normalised form makes no difference. -/
theorem parseAt_normalize (limit levels : Nat) (s : List Char) :
    parseAt limit levels (normalize true s) = parseAt limit levels s := by
  cases levels with
  | zero => rfl
  | succ levels => rw [parseAt, parseAt, normalize_normalize]

/-- A level is read to a formula if its operands are read, and that formula is put together
from what they are read to. -/
theorem parseAt_succ_eq_ok_iff {s : List Char} {shape : Shape}
    (h : Shape.ofChars (normalize true s) = .ok shape) (limit levels : Nat) {f : Formula} :
    parseAt limit (levels + 1) s = .ok f ↔
      match shape with
      | .atom g => g = f
      | .negation t => ∃ a, parseAt limit levels t = .ok a ∧ .neg a = f
      | .binary op l r => ∃ a b, parseAt limit levels l = .ok a ∧
          parseAt limit levels r = .ok b ∧ .bin op a b = f := by
  cases shape with
  | atom g => rw [parseAt_of_atom h, Except.ok.injEq]
  | negation t =>
    rw [parseAt_of_negation h]
    cases ha : parseAt limit levels t <;> simp [Except.map, ha]
  | binary op l r =>
    rw [parseAt_of_binary h]
    cases ha : parseAt limit levels l <;> cases hb : parseAt limit levels r <;>
      simp [Except.bind, Except.map, ha, hb]

/-- The operands of a level have only characters of the level. -/
theorem Shape.forall_mem_operand {p : Char → Prop} {s : List Char} (hs : ∀ c ∈ s, p c) :
    (∀ {t : List Char}, ofChars s = .ok (.negation t) → ∀ c ∈ t, p c) ∧
    ∀ {op : BinaryOp} {l r : List Char}, ofChars s = .ok (.binary op l r) →
      (∀ c ∈ l, p c) ∧ ∀ c ∈ r, p c := by
  constructor
  · intro t h c hc
    have hsubset := (ofChars_eq_ok_negation h).1.subset
    exact hs c (hsubset (List.mem_cons_of_mem _ hc))
  · intro op l r h
    have hsubset := (ofChars_eq_ok_binary h).1.subset
    exact ⟨fun c hc => hs c (hsubset (List.mem_append_left _ hc)),
      fun c hc => hs c (hsubset (List.mem_append_right _ (List.mem_cons_of_mem _ hc)))⟩

/-- **On any level, the reader accepts exactly the texts that are derived** and nest no
deeper than the levels that are left. -/
theorem parseAt_eq_ok_iff (limit : Nat) : ∀ (levels : Nat) {s : List Char} {f : Formula},
    (∀ c ∈ s, isSettled c = true) →
      (parseAt limit levels s = .ok f ↔ Derives .whole s f ∧ f.depth ≤ levels) := by
  intro levels
  induction levels with
  | zero =>
    intro s f _
    have := f.depth_pos
    simp only [parseAt_zero, reduceCtorEq, false_iff, not_and]
    omega
  | succ levels ih =>
    intro s f hs
    have hnorm := normalize_eq_self hs
    cases hshape : Shape.ofChars s with
    | error e =>
      rw [parseAt_of_error (by rw [hnorm, hshape]), derives_iff_denotes, hshape]
      simp
    | ok shape =>
      rw [derives_iff_of_ofChars hshape, parseAt_succ_eq_ok_iff (by rw [hnorm, hshape])]
      -- an operand is read on the level below
      cases shape with
      | atom g =>
        obtain ⟨-, -, rfl⟩ := Shape.ofChars_eq_ok_atom hshape
        constructor
        · rintro rfl
          exact ⟨.atom _, by rw [depth_atomOfChars]; omega⟩
        · rintro ⟨h, -⟩
          cases h
          rfl
      | negation t =>
        have ht := (Shape.forall_mem_operand hs).1 hshape
        constructor
        · rintro ⟨a, ha, rfl⟩
          obtain ⟨hd, hdepth⟩ := (ih ht).mp ha
          exact ⟨.negation hd, by simp only [Formula.depth]; omega⟩
        · rintro ⟨h, hdepth⟩
          cases h with
          | negation hd =>
            rw [Formula.depth] at hdepth
            exact ⟨_, (ih ht).mpr ⟨hd, by omega⟩, rfl⟩
      | binary op l r =>
        obtain ⟨hl, hr⟩ := (Shape.forall_mem_operand hs).2 hshape
        constructor
        · rintro ⟨a, b, ha, hb, rfl⟩
          obtain ⟨hda, hdeptha⟩ := (ih hl).mp ha
          obtain ⟨hdb, hdepthb⟩ := (ih hr).mp hb
          exact ⟨.binary hda hdb, by simp only [Formula.depth]; omega⟩
        · rintro ⟨h, hdepth⟩
          cases h with
          | binary hda hdb =>
            rw [Formula.depth] at hdepth
            exact ⟨_, _, (ih hl).mpr ⟨hda, by omega⟩, (ih hr).mpr ⟨hdb, by omega⟩, rfl⟩

/-- **The reader accepts exactly what the grammar derives** from the normalised text, as
far as the limit allows the formula to nest. -/
theorem parse_eq_ok_iff {limit : Nat} {text : List Char} {f : Formula} :
    parse limit text = .ok f ↔ Derives .whole (normalize true text) f ∧ f.depth ≤ limit + 1 := by
  unfold parse
  rw [← parseAt_normalize]
  exact parseAt_eq_ok_iff limit (limit + 1) fun _ => isSettled_of_mem_normalize

/-- **The language of the reader.**  Whatever is typed, and whatever the limit, a text is
read as a formula exactly if its normalised form derives that formula and the formula
nests no deeper than the limit allows; and no text derives two formulas. -/
theorem parse_accepts_grammar :
    (∀ (limit : Nat) (text : List Char) (f : Formula), parse limit text = .ok f ↔
      Derives .whole (normalize true text) f ∧ f.depth ≤ limit + 1) ∧
    ∀ (s : List Char) (f g : Formula), Derives .whole s f → Derives .whole s g → f = g :=
  ⟨fun _ _ _ => parse_eq_ok_iff, fun _ _ _ => derives_unique⟩

/-- A negation in front of a conditional is the negation of its first operand only, and
the text takes three levels. -/
theorem parse_accepts_grammar_negation_arrow :
    (∃ g, parse 2 "~p > q".toList = .ok g ∧ g = .cond (.neg (.var "p")) (.var "q")) ∧
      parse 1 "~p > q".toList ≠ .ok (.cond (.neg (.var "p")) (.var "q")) ∧
      ¬ Derives .whole (normalize true "~p > q".toList) (.neg (.cond (.var "p") (.var "q"))) := by
  have hname : ∀ c, isSpecial c = false → c ≠ 'T' → c ≠ 'F' →
      Derives .tight [c] (.var (String.ofList [c])) := fun c hc hT hF =>
    .name (by simp) (List.forall_mem_singleton.mpr hc) (by simpa) (by simpa)
  have hp := hname 'p' (by decide) (by decide) (by decide)
  have hq := hname 'q' (by decide) (by decide) (by decide)
  have hderives : Derives .whole ("¬p→q".toList) (.cond (.neg (.var "p")) (.var "q")) :=
    .wholeCompound (.compoundArrow (.inl rfl) (.operandTight (.neg hp)) (.operandTight hq))
  have hread : ∃ g, parse 2 "~p > q".toList = .ok g := ⟨_, rfl⟩
  obtain ⟨g, hg⟩ := hread
  obtain ⟨hgd, -⟩ := (parse_accepts_grammar.1 2 _ g).mp hg
  refine ⟨⟨g, hg, parse_accepts_grammar.2 _ g _ hgd hderives⟩, fun h => ?_, fun h => ?_⟩
  · exact absurd ((parse_accepts_grammar.1 1 _ _).mp h).2 (by decide)
  · exact absurd (parse_accepts_grammar.2 _ _ _ h hderives) (by decide)

end Sentential
