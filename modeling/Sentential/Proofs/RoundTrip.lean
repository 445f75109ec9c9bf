import Sentential.Proofs.Grammar
import Sentential.Proofs.Variables
import Sentential.Valuation.SymbolTable

/-!
# Canonical texts are read back

The canonical text of a formula is derived by the grammar in one way only, with every
binary connective in its parentheses, provided that each of its names is what the
reader would take for a variable: a run of settled plain characters that is no truth
value.  The reader itself makes no other names, so whatever it has read once it reads
again from the canonical text.

## Main definitions

* `isCleanName` — whether a name can be typed.
* `Formula.HasCleanNames` — all variables of a formula can be typed.

## Main results

* `Formula.derives_chars` — the canonical text derives the formula.
* `Derives.hasCleanNames` — only formulas with clean names are derived.
* `parse_text_round_trip` — **canonical texts are read back**, and every formula that
  is read has one.
-/

namespace Sentential

/-- Whether a name is read back as the variable it names: it can be stored, and it has
only characters that normalising leaves alone and that are not special. -/
def isCleanName (name : String) : Bool :=
  isValidName name && name.toList.all fun c => !isSpecial c && isSettled c

theorem isCleanName_iff {name : String} : isCleanName name = true ↔
    (name ≠ "" ∧ name ≠ "T" ∧ name ≠ "F") ∧
      ∀ c ∈ name.toList, isSpecial c = false ∧ isSettled c = true := by
  simp [isCleanName, isValidName, and_assoc]

namespace Formula

/-- All variables of a formula can be typed. -/
def HasCleanNames (f : Formula) : Prop := ∀ name ∈ f.variableNames, isCleanName name = true

instance (f : Formula) : Decidable f.HasCleanNames :=
  inferInstanceAs (Decidable (∀ name ∈ f.variableNames, isCleanName name = true))

theorem hasCleanNames_var {name : String} :
    (var name).HasCleanNames ↔ isCleanName name = true := by
  simp [HasCleanNames, variableNames, collect]

theorem hasCleanNames_bin {op : BinaryOp} {a b : Formula} :
    (bin op a b).HasCleanNames ↔ a.HasCleanNames ∧ b.HasCleanNames := by
  simp only [HasCleanNames, mem_variableNames_bin, or_imp, forall_and]

/-! ### Canonical texts -/

/-- Canonical texts with clean names are settled. -/
theorem isSettled_of_mem_chars {f : Formula} {c : Char} (h : f.HasCleanNames)
    (hc : c ∈ f.chars) : isSettled c = true := by
  induction f with
  | lit value =>
    cases value <;> rw [chars_lit, List.mem_singleton] at hc <;> rw [hc] <;> decide
  | var name => exact ((isCleanName_iff.mp (hasCleanNames_var.mp h)).2 c hc).2
  | neg a ih =>
    rw [chars_neg, List.mem_cons] at hc
    rcases hc with rfl | hc
    · exact isSettled_symbol .not
    · exact ih h hc
  | bin op a b iha ihb =>
    obtain ⟨ha, hb⟩ := hasCleanNames_bin.mp h
    simp only [chars_bin, List.mem_cons, List.mem_append, List.not_mem_nil, or_false] at hc
    rcases hc with rfl | hc | rfl | hc | rfl
    · decide
    · exact iha ha hc
    · exact isSettled_symbol (.binary op)
    · exact ihb hb hc
    · decide

/-- **The canonical text of a formula with clean names derives the formula**, and can be
an operand of any connective. -/
theorem derives_chars {f : Formula} (h : f.HasCleanNames) : Derives .tight f.chars f := by
  induction f with
  | lit value =>
    cases value with
    | true => exact .letterT
    | false => exact .letterF
  | var name =>
    obtain ⟨⟨hne, hT, hF⟩, hclean⟩ := isCleanName_iff.mp (hasCleanNames_var.mp h)
    have hlist : ∀ s : String, name ≠ s → name.toList ≠ s.toList :=
      fun s hs heq => hs (String.toList_inj.mp heq)
    have hderives : Derives .tight name.toList (.var (String.ofList name.toList)) :=
      .name (hlist "" hne) (fun c hc => (hclean c hc).1) (hlist "T" hT) (hlist "F" hF)
    rwa [String.ofList_toList] at hderives
  | neg a ih => exact .neg (ih h)
  | bin op a b iha ihb =>
    obtain ⟨ha, hb⟩ := hasCleanNames_bin.mp h
    have hcompound : Derives .compound (a.chars ++ op.symbol :: b.chars) (.bin op a b) := by
      cases op with
      | and => exact .compoundJunction (.inl rfl) (iha ha) (ihb hb)
      | or => exact .compoundJunction (.inr rfl) (iha ha) (ihb hb)
      | cond => exact .compoundArrow (.inl rfl) (.operandTight (iha ha)) (.operandTight (ihb hb))
      | iff => exact .compoundArrow (.inr rfl) (.operandTight (iha ha)) (.operandTight (ihb hb))
    have hgroup := Derives.group hcompound
    rwa [List.append_assoc, List.cons_append] at hgroup

end Formula

/-- **Only formulas with clean names are derived** from settled texts. -/
theorem Derives.hasCleanNames {k : Category} {s : List Char} {f : Formula} (h : Derives k s f) :
    (∀ c ∈ s, isSettled c = true) → f.HasCleanNames := by
  -- the connectives and parentheses of the text are dropped one constructor at a time
  have hcons : ∀ {c : Char} {s : List Char}, (∀ d ∈ c :: s, isSettled d = true) →
      ∀ d ∈ s, isSettled d = true := fun hs d hd => hs d (List.mem_cons_of_mem _ hd)
  have hbin : ∀ {op : BinaryOp} {s t : List Char} {a b : Formula},
      ((∀ c ∈ s, isSettled c = true) → a.HasCleanNames) →
      ((∀ c ∈ t, isSettled c = true) → b.HasCleanNames) →
      (∀ c ∈ s ++ op.symbol :: t, isSettled c = true) → (Formula.bin op a b).HasCleanNames := by
    intro op s t a b iha ihb hs
    refine Formula.hasCleanNames_bin.mpr ⟨iha fun c hc => ?_, ihb fun c hc => ?_⟩
    · exact hs c (List.mem_append_left _ hc)
    · exact hs c (List.mem_append_right _ (List.mem_cons_of_mem _ hc))
  induction h with
  | letterT => intro _; decide
  | letterF => intro _; decide
  | name hne hplain hT hF =>
    rename_i s
    intro hs
    have hofList : ∀ t : String, s ≠ t.toList → String.ofList s ≠ t := by
      rintro t hst rfl
      exact hst String.toList_ofList.symm
    rw [Formula.hasCleanNames_var, isCleanName_iff, String.toList_ofList]
    exact ⟨⟨hofList "" hne, hofList "T" hT, hofList "F" hF⟩, fun c hc => ⟨hplain c hc, hs c hc⟩⟩
  | neg _ ih => exact fun hs => ih (hcons hs)
  | compoundNeg _ ih => exact fun hs => ih (hcons hs)
  | group _ ih => exact fun hs => ih fun c hc => hcons hs c (List.mem_append_left _ hc)
  | operandTight _ ih => exact ih
  | wholeTight _ ih => exact ih
  | wholeCompound _ ih => exact ih
  | operandJunction _ _ _ iha ihb => exact hbin iha ihb
  | compoundJunction _ _ _ iha ihb => exact hbin iha ihb
  | compoundArrow _ _ _ iha ihb => exact hbin iha ihb

/-! ### Reading back -/

/-- A formula with clean names is read from its canonical text, if the limit allows it
to nest so deep. -/
theorem parse_chars {f : Formula} {limit : Nat} (h : f.HasCleanNames)
    (hdepth : f.depth ≤ limit + 1) : parse limit f.chars = .ok f := by
  rw [parse_eq_ok_iff, normalize_eq_self fun c hc => Formula.isSettled_of_mem_chars h hc]
  exact ⟨.wholeTight (Formula.derives_chars h), hdepth⟩

theorem hasCleanNames_of_parse {f : Formula} {limit : Nat} {text : List Char}
    (h : parse limit text = .ok f) : f.HasCleanNames :=
  (parse_eq_ok_iff.mp h).1.hasCleanNames fun _ => isSettled_of_mem_normalize

/-- A formula that was read is read back from its canonical text, within the same limit. -/
theorem parse_text_of_parse {f : Formula} {limit : Nat} {text : List Char}
    (h : parse limit text = .ok f) : parse limit f.text.toList = .ok f := by
  rw [Formula.toList_text]
  exact parse_chars (hasCleanNames_of_parse h) (parse_eq_ok_iff.mp h).2

/-- **Printing and reading.**  A formula with clean names is read back from its canonical
text within any limit that allows its depth; a formula that was read, from whatever
text, has clean names and is read back within the same limit. -/
theorem parse_text_round_trip :
    (∀ (f : Formula) (limit : Nat), f.HasCleanNames → f.depth ≤ limit + 1 →
      parse limit f.text.toList = .ok f) ∧
    ∀ (limit : Nat) (text : List Char) (f : Formula), parse limit text = .ok f →
      f.HasCleanNames ∧ parse limit f.text.toList = .ok f := by
  refine ⟨fun f limit hclean hdepth => ?_, fun limit text f h => ?_⟩
  · rw [Formula.toList_text]
    exact parse_chars hclean hdepth
  · have hclean := hasCleanNames_of_parse h
    rw [Formula.toList_text]
    exact ⟨hclean, parse_chars hclean (parse_eq_ok_iff.mp h).2⟩

/-- The text `p ^ q > <` has the odd but clean name `<` in it, and is read back from
`((p∧q)→<)` within the same limit. -/
theorem parse_text_round_trip_odd_name :
    (Formula.cond (.conj (.var "p") (.var "q")) (.var "<")).HasCleanNames ∧
      parse 2 "p ^ q > <".toList = .ok (.cond (.conj (.var "p") (.var "q")) (.var "<")) ∧
      parse 2 "((p∧q)→<)".toList = .ok (.cond (.conj (.var "p") (.var "q")) (.var "<")) ∧
      parse 7 "((p∧q)→<)".toList = .ok (.cond (.conj (.var "p") (.var "q")) (.var "<")) := by
  have htext : (Formula.cond (.conj (.var "p") (.var "q")) (.var "<")).text = "((p∧q)→<)" := rfl
  have hread : parse 2 "p ^ q > <".toList = .ok (.cond (.conj (.var "p") (.var "q")) (.var "<")) :=
    rfl
  obtain ⟨hclean, hback⟩ := parse_text_round_trip.2 2 _ _ hread
  have hagain := parse_text_round_trip.1 _ 7 hclean (by decide)
  rw [htext] at hback hagain
  exact ⟨hclean, hread, hback, hagain⟩

end Sentential
