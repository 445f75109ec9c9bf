import Sentential.Editor.Session
import Sentential.Proofs.Grammar

/-!
# What reading keeps of a text

Reading cuts a text at its connectives, takes the parentheses off the pieces and puts the
tokens of a piece together again.  The only characters that get lost on the way, or come to
the canonical text from nowhere, are parentheses: the connectives of the formula are those of
the text, and its atoms are what stands between them, all in the order of the text.

## Main definitions

* `dropParens` — a text without its parentheses.
* `plainRuns` — the maximal runs of plain characters of a text.
* `Formula.atoms` — the atoms of a formula, from left to right.
* `Spells` — the grammar without its categories: where parentheses are needed is left open.

## Main results

* `Derives.spells` — what a text stands for, it spells.
* `Spells.dropParens_eq`, `Spells.countP_eq_count`, `Spells.atoms_eq` — what a text has in
  common with the formula that it spells.
* `parse_keeps_characters` — **reading loses, doubles and moves no character but
  parentheses.**
-/

namespace Sentential

/-! ### Runs of plain characters -/

/-- A text without its parentheses. -/
def dropParens (s : List Char) : List Char := s.filter fun c => !isParen c

/-- The maximal runs of plain characters of a text, from left to right: the pieces between
its special characters, but for the empty ones. -/
def plainRuns (s : List Char) : List (List Char) :=
  (s.splitOnP isSpecial).filter fun run => !run.isEmpty

/-- **No run goes on over a special character.** -/
theorem plainRuns_append_cons {c : Char} (hc : isSpecial c = true) (s t : List Char) :
    plainRuns (s ++ c :: t) = plainRuns s ++ plainRuns t := by
  rw [plainRuns, List.splitOnP_append_cons s t hc, List.filter_append]
  rfl

@[simp] theorem plainRuns_nil : plainRuns [] = [] := rfl

/-- A special character belongs to no run. -/
theorem plainRuns_cons {c : Char} (hc : isSpecial c = true) (s : List Char) :
    plainRuns (c :: s) = plainRuns s :=
  plainRuns_append_cons hc [] s

/-- Parentheses belong to no run. -/
theorem plainRuns_group (s : List Char) : plainRuns ('(' :: (s ++ [')'])) = plainRuns s := by
  rw [plainRuns_cons (by decide), plainRuns_append_cons (by decide), plainRuns_nil,
    List.append_nil]

/-- **A run is not interrupted**: plain characters that follow each other are in one run. -/
theorem plainRuns_of_plain {s : List Char} (hne : s ≠ [])
    (hplain : ∀ c ∈ s, isSpecial c = false) : plainRuns s = [s] := by
  rw [plainRuns, List.splitOnP_eq_singleton hplain,
    List.filter_cons_of_pos (by simpa using hne), List.filter_nil]

/-! ### Texts without parentheses -/

/-- Connectives are no parentheses. -/
theorem isParen_symbol (k : Connective) : isParen k.symbol = false := by
  rcases k with _ | _ | _ | _ | _ <;> decide

theorem dropParens_append (s t : List Char) :
    dropParens (s ++ t) = dropParens s ++ dropParens t :=
  List.filter_append s t

/-- The connectives of a text stay. -/
theorem dropParens_symbol_cons (k : Connective) (s : List Char) :
    dropParens (k.symbol :: s) = k.symbol :: dropParens s :=
  List.filter_cons_of_pos (by rw [isParen_symbol]; rfl)

/-- A pair of parentheses around a text goes. -/
theorem dropParens_group (s : List Char) : dropParens ('(' :: (s ++ [')'])) = dropParens s :=
  (dropParens_append s [')']).trans (List.append_nil _)

/-! ### Atoms -/

/-- The canonical text of an atom is the text it was made of. -/
theorem chars_atomOfChars (s : List Char) : (Shape.atomOfChars s).chars = s := by
  rw [Shape.atomOfChars]
  split
  · next h => exact (beq_iff_eq.mp h).symm
  · split
    · next h => exact (beq_iff_eq.mp h).symm
    · exact String.toList_ofList

/-- A text is made an atom, whatever it is. -/
theorem isAtom_atomOfChars (s : List Char) : (Shape.atomOfChars s).isAtom = true := by
  rw [Shape.atomOfChars]
  split
  · rfl
  · split <;> rfl

/-- The atoms of a formula, from left to right, each as often as it occurs. -/
def Formula.atoms (f : Formula) : List Formula := f.subformulas.filter isAtom

theorem Formula.atoms_of_isAtom {a : Formula} (h : a.isAtom = true) : a.atoms = [a] := by
  obtain ⟨value, rfl⟩ | ⟨name, rfl⟩ := isAtom_iff.mp h <;> rfl

theorem Formula.count_of_isAtom {a : Formula} (h : a.isAtom = true) (p : Formula → Bool) :
    a.count p = (p a).toNat := by
  obtain ⟨value, rfl⟩ | ⟨name, rfl⟩ := isAtom_iff.mp h <;> rfl

/-! ### Spelling -/

/-- `Spells s f` says that the text `s` spells the formula `f`: its atoms and connectives are
where they are in `f`, and there may be parentheses around any part. -/
inductive Spells : List Char → Formula → Prop where
  /-- A run of plain characters spells an atom. -/
  | atom {s : List Char} (hne : s ≠ []) (hplain : ∀ c ∈ s, isSpecial c = false) :
      Spells s (Shape.atomOfChars s)
  /-- A negation is spelled in front of its operand. -/
  | neg {s : List Char} {a : Formula} (h : Spells s a) :
      Spells (Connective.not.symbol :: s) (.neg a)
  /-- A binary connective is spelled between its operands. -/
  | bin {op : BinaryOp} {s t : List Char} {a b : Formula} (hs : Spells s a)
      (ht : Spells t b) : Spells (s ++ op.symbol :: t) (.bin op a b)
  /-- Parentheses spell nothing. -/
  | group {s : List Char} {f : Formula} (h : Spells s f) : Spells ('(' :: (s ++ [')'])) f

/-- **What a text stands for, it spells.** -/
theorem Derives.spells {k : Category} {s : List Char} {f : Formula} (h : Derives k s f) :
    Spells s f := by
  induction h with
  | letterT => exact .atom (List.cons_ne_nil _ _) (List.forall_mem_singleton.mpr (by decide))
  | letterF => exact .atom (List.cons_ne_nil _ _) (List.forall_mem_singleton.mpr (by decide))
  | @name s hne hplain hT hF =>
    have hspells : Spells s (Shape.atomOfChars s) := .atom hne hplain
    rwa [Shape.atomOfChars, if_neg (by simpa using hT), if_neg (by simpa using hF)] at hspells
  | neg _ ih | compoundNeg _ ih => exact .neg ih
  | group _ ih => exact .group ih
  | operandTight _ ih | wholeTight _ ih | wholeCompound _ ih => exact ih
  | operandJunction _ _ _ ihs iht => exact .bin ihs iht
  | compoundJunction _ _ _ ihs iht => exact .bin ihs iht
  | compoundArrow _ _ _ ihs iht => exact .bin ihs iht

namespace Spells

variable {s : List Char} {f : Formula}

/-- **A text and the canonical text of the formula that it spells differ in parentheses
only.** -/
theorem dropParens_eq (h : Spells s f) : dropParens s = dropParens f.chars := by
  induction h with
  | atom => rw [chars_atomOfChars]
  | neg _ ih => rw [Formula.chars_neg, dropParens_symbol_cons, dropParens_symbol_cons, ih]
  | @bin op s t a b _ _ ihs iht =>
    have happend : ∀ u v, dropParens (u ++ op.symbol :: v)
        = dropParens u ++ op.symbol :: dropParens v := fun u v => by
      rw [dropParens_append]
      exact congrArg _ (dropParens_symbol_cons (.binary op) v)
    calc dropParens (s ++ op.symbol :: t)
        = dropParens (a.chars ++ op.symbol :: b.chars) := by rw [happend, happend, ihs, iht]
      _ = dropParens (Formula.bin op a b).chars := by
        rw [← dropParens_group, List.append_assoc, List.cons_append, Formula.chars_bin]
  | group _ ih => rw [dropParens_group, ih]

/-- **A text has as many connectives of a kind as the formula that it spells.**  The kind is
given as a property `p` of characters and as the property `q` of the formulas that have such
a connective at their root. -/
theorem countP_eq_count {p : Char → Bool} {q : Formula → Bool} (h : Spells s f)
    (hplain : ∀ c, isConnective c = false → p c = false)
    (hatom : ∀ a : Formula, a.isAtom = true → q a = false)
    (hneg : ∀ a : Formula, q (.neg a) = p Connective.not.symbol)
    (hbin : ∀ (op : BinaryOp) (a b : Formula), q (.bin op a b) = p op.symbol) :
    s.countP p = f.count q := by
  have hroot : ∀ c, (if p c = true then 1 else 0) = (p c).toNat := fun c => by
    cases p c <;> rfl
  induction h with
  | @atom s hne hs =>
    have hp : ∀ c ∈ s, ¬ p c = true := fun c hc => by
      rw [hplain c (Bool.or_eq_false_iff.mp (hs c hc)).1]
      exact Bool.false_ne_true
    have hq : q (Shape.atomOfChars s) = false := hatom _ (isAtom_atomOfChars s)
    rw [List.countP_eq_zero.mpr hp, Formula.count_of_isAtom (isAtom_atomOfChars s), hq]
    rfl
  | @neg s a _ ih =>
    rw [List.countP_cons, ih, hroot, Formula.count, hneg, Nat.add_comm]
  | @bin op s t a b _ _ ihs iht =>
    rw [List.countP_append, List.countP_cons, ihs, iht, hroot, Formula.count, hbin]
    omega
  | group _ ih =>
    rw [List.countP_cons, List.countP_append, ih]
    simp [hplain '(' (by decide), hplain ')' (by decide)]

/-- A text has the binary connectives of the formula that it spells. -/
theorem count_isBinary (h : Spells s f) :
    f.count Formula.isBinary = s.countP (['↔', '→', '∧', '⋁'].contains ·) := by
  refine (h.countP_eq_count (fun c hc => ?_) (fun a ha => ?_) (fun _ => rfl) ?_).symm
  · simp only [List.contains_eq_mem, decide_eq_false_iff_not, List.mem_cons, List.not_mem_nil,
      or_false]
    rintro (rfl | rfl | rfl | rfl) <;> revert hc <;> decide
  · obtain ⟨value, rfl⟩ | ⟨name, rfl⟩ := Formula.isAtom_iff.mp ha <;> rfl
  · intro op a b
    cases op <;> rfl

/-- So it has the negations of that formula. -/
theorem count_isNegation (h : Spells s f) : f.count Formula.isNegation = s.count '¬' := by
  refine (h.countP_eq_count (fun c hc => ?_) (fun a ha => ?_) (fun _ => rfl) ?_).symm
  · refine beq_false_of_ne ?_
    rintro rfl
    revert hc
    decide
  · obtain ⟨value, rfl⟩ | ⟨name, rfl⟩ := Formula.isAtom_iff.mp ha <;> rfl
  · intro op a b
    cases op <;> rfl

/-- **The runs of a text are the atoms of the formula that it spells.** -/
theorem atoms_eq (h : Spells s f) : f.atoms = (plainRuns s).map Shape.atomOfChars := by
  induction h with
  | @atom s hne hplain =>
    rw [plainRuns_of_plain hne hplain, Formula.atoms_of_isAtom (isAtom_atomOfChars s)]
    rfl
  | @neg s a _ ih =>
    have hatoms : (Formula.neg a).atoms = a.atoms := rfl
    rw [hatoms, ih, plainRuns_cons (isSpecial_symbol .not)]
  | @bin op s t a b _ _ ihs iht =>
    have hatoms : (Formula.bin op a b).atoms = a.atoms ++ b.atoms := List.filter_append ..
    have hsymbol : isSpecial op.symbol = true := isSpecial_symbol (.binary op)
    rw [hatoms, ihs, iht, plainRuns_append_cons hsymbol, List.map_append]
  | group _ ih => rw [ih, plainRuns_group]

end Spells

/-! ### Reading -/

/-- **Reading keeps the characters of a text.**  However a text that is read has its
parentheses, and within whatever limit, the canonical text of the formula has the other
characters of the normalised text, in their order.  The formula has the binary connectives of
that text, as many as a session shows for it, and its negations; and its atoms, from left to
right, are the runs of plain characters. -/
theorem parse_keeps_characters {limit : Nat} {text : List Char} {f : Formula}
    (h : parse limit text = .ok f) :
    dropParens f.text.toList = dropParens (normalize true text) ∧
    (f.count Formula.isBinary = (normalize true text).countP (['↔', '→', '∧', '⋁'].contains ·) ∧
      ∀ s : Session, s.formula? = some f → s.summary.map Summary.binaryOperators
        = some ((normalize true text).countP (['↔', '→', '∧', '⋁'].contains ·))) ∧
    f.count Formula.isNegation = (normalize true text).count '¬' ∧
    f.atoms.map Formula.chars = plainRuns (normalize true text) ∧
    f.atoms = (plainRuns (normalize true text)).map Shape.atomOfChars := by
  have hspells : Spells (normalize true text) f := (parse_eq_ok_iff.mp h).1.spells
  have hbinary := hspells.count_isBinary
  refine ⟨?_, ⟨hbinary, fun s hs => ?_⟩, hspells.count_isNegation, ?_, hspells.atoms_eq⟩
  · rw [Formula.toList_text, hspells.dropParens_eq]
  · rw [Session.summary, hs, ← hbinary]
    rfl
  · rw [hspells.atoms_eq, List.map_map]
    exact List.map_id'' chars_atomOfChars _

-- the text below is read by evaluation
set_option maxRecDepth 1000

/-- The text `~(p ^ T) <> (q > ~pq)` becomes `(¬(p∧T)↔(q→¬pq))`. -/
theorem parse_keeps_characters_negations :
    ∃ f, parse 3 "~(p ^ T) <> (q > ~pq)".toList = .ok f ∧
      f = .iff (.neg (.conj (.var "p") (.lit true))) (.cond (.var "q") (.neg (.var "pq"))) ∧
      dropParens f.text.toList = "¬p∧T↔q→¬pq".toList ∧ f.count Formula.isBinary = 3 ∧
      f.count Formula.isNegation = 2 ∧
      f.atoms = [.var "p", .lit true, .var "q", .var "pq"] := by
  have hread : parse 3 "~(p ^ T) <> (q > ~pq)".toList
      = .ok (.iff (.neg (.conj (.var "p") (.lit true))) (.cond (.var "q") (.neg (.var "pq")))) :=
    rfl
  obtain ⟨htext, ⟨hbinary, -⟩, hnegation, -, hatoms⟩ := parse_keeps_characters hread
  exact ⟨_, hread, rfl, htext.trans (by decide), hbinary.trans (by decide),
    hnegation.trans (by decide), hatoms.trans (by decide)⟩

end Sentential
