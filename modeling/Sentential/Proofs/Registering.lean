import Mathlib.Data.List.Basic
import Sentential.Proofs.TableHistory

/-!
# Variables of a formula and of its parts

The variables are collected from left to right into one list, which passes over the names that
are in it already.  So it has each name that occurs where it occurs first.  The variables of a
binary connective are those of its left operand, and behind them those of the right one that are
new.

A table passes over the names that it has, too.  It makes no difference whether a name is left
out because the left operand has it, or is added again; and a name that is not valid stops both
in the same place.

## Main definitions

* `Formula.name?` — the name of a variable.

## Main results

* `Formula.occurrences_eq_filterMap` — the occurrences are the variables among the subformulas.
* `Formula.variableNames_eq_eraseDups`, `pairwise_idxOf_eraseDups` — each name stands in the order
  of the first occurrences.
* `Formula.variableNames_bin` — the variables of a binary connective.
* `SymbolTable.register_bin`, `SymbolTable.register_register` — adding the variables of two
  formulas, and of one formula twice.
* `SymbolTable.variableNames_and_register_compose` — **all of it.**
-/

namespace Sentential

/-! ### The order of first occurrences -/

/-- **A list without repetitions keeps the order of the first occurrences.** -/
theorem pairwise_idxOf_eraseDups (names : List String) :
    names.eraseDups.Pairwise fun x y => names.idxOf x < names.idxOf y := by
  induction names using List.reverseRecOn with
  | nil => exact List.Pairwise.nil
  | append_singleton names name ih =>
    have hkeep : names.eraseDups.Pairwise fun x y =>
        (names ++ [name]).idxOf x < (names ++ [name]).idxOf y := by
      refine ih.imp_of_mem fun {x y} hx hy hlt => ?_
      rwa [List.idxOf_append_of_mem (List.mem_eraseDups.mp hx),
        List.idxOf_append_of_mem (List.mem_eraseDups.mp hy)]
    rw [eraseDups_append_singleton]
    by_cases hname : name ∈ names
    · rwa [insertName_of_mem (List.mem_eraseDups.mpr hname)]
    · rw [insertName_of_not_mem fun h => hname (List.mem_eraseDups.mp h), List.pairwise_append]
      refine ⟨hkeep, List.pairwise_singleton _ name, fun x hx y hy => ?_⟩
      obtain rfl := List.mem_singleton.mp hy
      have hold : x ∈ names := List.mem_eraseDups.mp hx
      -- the new name comes behind the last of the others
      rw [List.idxOf_append_of_mem hold, List.idxOf_append_of_notMem hname]
      exact Nat.lt_add_right _ (List.idxOf_lt_length_of_mem hold)

namespace Formula

/-! ### Variables -/

/-- The name of a variable. -/
def name? : Formula → Option String
  | .var name => some name
  | _ => none

/-- **The occurrences of names are the variables among the subformulas**, from left to right. -/
theorem occurrences_eq_filterMap (f : Formula) : f.occurrences = f.subformulas.filterMap name? := by
  induction f with
  | lit value => rfl
  | var name => rfl
  | neg a ih => exact ih
  | bin op a b iha ihb =>
    have hroot : (bin op a b).name? = none := rfl
    rw [occurrences, iha, ihb, subformulas, List.filterMap_cons_none hroot, List.filterMap_append]

theorem mem_occurrences_iff {name : String} {f : Formula} :
    name ∈ f.occurrences ↔ var name ∈ f.subformulas := by
  rw [occurrences_eq_filterMap, List.mem_filterMap]
  constructor
  · rintro ⟨g, hg, hname⟩
    cases g with
    | var x => rwa [← Option.some.inj hname]
    | _ => cases hname
  · exact fun h => ⟨var name, h, rfl⟩

/-- To collect the variables of a formula is to insert the names that occur one by one. -/
theorem collect_eq_foldl (f : Formula) : ∀ seen : List String,
    f.collect seen = f.occurrences.foldl insertName seen := by
  induction f with
  | lit value => exact fun _ => rfl
  | var name => exact fun _ => rfl
  | neg a ih => exact ih
  | bin op a b iha ihb =>
    intro seen
    rw [collect, ihb, iha, occurrences, List.foldl_append]

theorem variableNames_eq_eraseDups (f : Formula) : f.variableNames = f.occurrences.eraseDups := by
  rw [variableNames, collect_eq_foldl, foldl_insertName_nil]

/-- **The variables of a binary connective** are those of its left operand, and then those of the
right one that are new. -/
theorem variableNames_bin (op : BinaryOp) (a b : Formula) :
    (bin op a b).variableNames
      = a.variableNames ++ b.variableNames.removeAll a.variableNames := by
  show b.collect a.variableNames = _
  rw [collect_eq_foldl, foldl_insertName_eq_append, ← variableNames_eq_eraseDups]

end Formula

namespace SymbolTable

/-! ### Adding names -/

/-- A name that is added is valid, and the names of the table stay. -/
theorem of_add_eq_ok {t t' : SymbolTable} {name : String} {value : Bool}
    (h : t.add name value = .ok t') :
    isValidName name = true ∧ ∀ x, x ∈ t'.names ↔ x ∈ t.names ∨ x = name := by
  rw [add_eq] at h
  split at h
  · rename_i hvalid
    obtain rfl := Except.ok.inj h
    refine ⟨hvalid, fun x => ?_⟩
    rw [names_store, mem_insertName]
  · cases h

/-- The names of a table stay when others are added. -/
theorem names_subset_storeAll_add (values : List (String × Bool)) (t : SymbolTable) :
    t.names ⊆ (storeAll add t values).1.names := by
  rw [storeAll_eq add_eq]
  exact (names_isPrefix_foldl_store _ t).subset

/-- Further names are stored in what the ones in front of them have left behind. -/
theorem storeAll_append_of_ok
    {store : SymbolTable → String → Bool → Except InvalidName SymbolTable}
    (values' : List (String × Bool)) : ∀ {values : List (String × Bool)} {t t' : SymbolTable},
    storeAll store t values = (t', .ok ()) →
      storeAll store t (values ++ values') = storeAll store t' values' := by
  intro values
  induction values with
  | nil =>
    intro t t' h
    obtain rfl : t = t' := congrArg Prod.fst h
    rfl
  | cons entry rest ih =>
    intro t t' h
    rw [List.cons_append]
    rw [storeAll] at h ⊢
    cases hone : store t entry.1 entry.2 with
    | ok t₁ =>
      rw [hone] at h
      exact ih h
    | error e =>
      rw [hone] at h
      cases congrArg Prod.snd h

/-- **Names that are there can be left out** when several are added, if they are valid. -/
theorem storeAll_add_filter {p : String → Bool} : ∀ {names : List String} {t : SymbolTable},
    (∀ name ∈ names, p name = false → isValidName name = true ∧ name ∈ t.names) →
      storeAll add t ((names.filter p).map fun name => (name, false))
        = storeAll add t (names.map fun name => (name, false)) := by
  intro names
  induction names with
  | nil => intro t _; rfl
  | cons name rest ih =>
    intro t h
    rw [List.forall_mem_cons] at h
    cases hp : p name with
    | false =>
      obtain ⟨hvalid, hmem⟩ := h.1 hp
      rw [List.filter_cons_of_neg (by simp [hp]), ih h.2, List.map_cons, storeAll,
        add_eq_self hvalid hmem]
    | true =>
      rw [List.filter_cons_of_pos hp, List.map_cons, List.map_cons, storeAll, storeAll]
      cases hadd : t.add name false with
      | error e => rfl
      | ok t₁ =>
        refine ih fun x hx hpx => ?_
        obtain ⟨hvalid, hmem⟩ := h.2 x hx hpx
        exact ⟨hvalid, ((of_add_eq_ok hadd).2 x).mpr (.inl hmem)⟩

/-- **Names that are added a second time leave no trace**, also when one of them is refused. -/
theorem storeAll_add_again : ∀ (names : List String) (t : SymbolTable),
    storeAll add (storeAll add t (names.map fun name => (name, false))).1
        (names.map fun name => (name, false))
      = storeAll add t (names.map fun name => (name, false)) := by
  intro names
  induction names with
  | nil => intro t; rfl
  | cons name rest ih =>
    intro t
    rw [List.map_cons]
    cases hadd : t.add name false with
    | error e =>
      have hstop : storeAll add t ((name, false) :: rest.map fun name => (name, false))
          = (t, .error e) := by rw [storeAll, hadd]
      rw [hstop, hstop]
    | ok t₁ =>
      have hgo : storeAll add t ((name, false) :: rest.map fun name => (name, false))
          = storeAll add t₁ (rest.map fun name => (name, false)) := by rw [storeAll, hadd]
      obtain ⟨hvalid, hnames⟩ := of_add_eq_ok hadd
      have hmem : name ∈ (storeAll add t₁ (rest.map fun name => (name, false))).1.names :=
        names_subset_storeAll_add _ t₁ ((hnames name).mpr (.inr rfl))
      rw [hgo, storeAll, add_eq_self hvalid hmem]
      exact ih t₁

/-! ### Adding the variables of formulas -/

/-- **To add the variables of one formula and then those of another is to add those of the two
together**, if the names in the first are valid.  A name in the second that is not valid stops
both in the same place. -/
theorem register_bin {f : Formula} (hf : ∀ name ∈ f.variableNames, isValidName name = true)
    (t : SymbolTable) (op : BinaryOp) (g : Formula) :
    (t.register f).1.register g = t.register (.bin op f g) := by
  obtain ⟨t', hregister, hnames⟩ := exists_register_eq_ok hf t
  have hskip : ∀ name ∈ g.variableNames, (!f.variableNames.elem name) = false →
      isValidName name = true ∧ name ∈ t'.names := by
    intro name _ hname
    have hmem : name ∈ f.variableNames := by simpa using hname
    refine ⟨hf name hmem, ?_⟩
    rw [hnames, Formula.mem_collect]
    exact .inr (Formula.mem_variableNames.mp hmem)
  calc (t.register f).1.register g
      = storeAll add t' (g.variableNames.map fun name => (name, false)) := by
        rw [hregister]
        rfl
    _ = storeAll add t'
          ((g.variableNames.removeAll f.variableNames).map fun name => (name, false)) :=
        (storeAll_add_filter hskip).symm
    _ = t.register (.bin op f g) := by
        rw [register, Formula.variableNames_bin, List.map_append]
        exact (storeAll_append_of_ok _ hregister).symm

/-- **To add the variables of a formula twice is to add them once**, also when one of them is
refused. -/
theorem register_register (t : SymbolTable) (f : Formula) :
    (t.register f).1.register f = t.register f :=
  storeAll_add_again f.variableNames t

/-- **Collecting the variables and adding them to a table go along with the structure of
formulas.**  The variables of a formula have no repetitions, are the names that occur in it, and
stand in the order of their first occurrences from left to right; and those of a binary connective
are those of its left operand, followed by those of the right one that are new.  To add the
variables of two formulas one after the other to any table gives what adding those of the two
under a binary connective gives, if their names are valid, and nothing is refused then.  To add
those of one formula twice gives what adding them once gives, whatever the names are. -/
theorem variableNames_and_register_compose :
    (∀ f : Formula, f.variableNames.Nodup ∧
      (∀ name, name ∈ f.variableNames ↔ .var name ∈ f.subformulas) ∧
      f.occurrences = f.subformulas.filterMap Formula.name? ∧
      f.variableNames.Pairwise fun x y => f.occurrences.idxOf x < f.occurrences.idxOf y) ∧
    (∀ (op : BinaryOp) (f g : Formula), (Formula.bin op f g).variableNames
      = f.variableNames ++ g.variableNames.removeAll f.variableNames) ∧
    (∀ (t : SymbolTable) (op : BinaryOp) (f g : Formula),
      (∀ name ∈ f.variableNames, isValidName name = true) →
      (∀ name ∈ g.variableNames, isValidName name = true) → ∃ t₁ t₂ : SymbolTable,
        t.register f = (t₁, .ok ()) ∧ t₁.register g = (t₂, .ok ()) ∧
          t.register (.bin op f g) = (t₂, .ok ())) ∧
    ∀ (t : SymbolTable) (f : Formula), (t.register f).1.register f = t.register f := by
  refine ⟨fun f => ⟨f.nodup_variableNames, fun name => ?_, f.occurrences_eq_filterMap, ?_⟩,
    Formula.variableNames_bin, fun t op f g hf hg => ?_, register_register⟩
  · rw [Formula.mem_variableNames, Formula.mem_occurrences_iff]
  · rw [Formula.variableNames_eq_eraseDups]
    exact pairwise_idxOf_eraseDups f.occurrences
  · obtain ⟨t₁, hfirst, -⟩ := exists_register_eq_ok hf t
    obtain ⟨t₂, hsecond, -⟩ := exists_register_eq_ok hg t₁
    have hboth : (t.register f).1.register g = t.register (.bin op f g) := register_bin hf t op g
    rw [hfirst] at hboth
    exact ⟨t₁, t₂, hfirst, hsecond, hboth ▸ hsecond⟩

/-- The formulas `q∧p` and `¬q↔r` share a name, and the table has the other name of the first one
with a value of its own.  Together they add `q` and `r` in this order. -/
theorem variableNames_and_register_compose_shared_name :
    let t : SymbolTable := ⟨[("p", true)]⟩
    let f := Formula.conj (.var "q") (.var "p")
    let g := Formula.iff (.neg (.var "q")) (.var "r")
    (∀ name ∈ f.variableNames, isValidName name = true) ∧
      (∀ name ∈ g.variableNames, isValidName name = true) ∧
      ∃ t₁ t₂ : SymbolTable, t.register f = (t₁, .ok ()) ∧ t₁.register g = (t₂, .ok ()) ∧
        t.register (.conj f g) = (t₂, .ok ()) ∧
        t₂.entries = [("p", true), ("q", false), ("r", false)] := by
  intro t f g
  obtain ⟨-, -, htables, -⟩ := variableNames_and_register_compose
  have hf : ∀ name ∈ f.variableNames, isValidName name = true := by decide
  have hg : ∀ name ∈ g.variableNames, isValidName name = true := by decide
  obtain ⟨t₁, t₂, hfirst, hsecond, hboth⟩ := htables t .and f g hf hg
  have hrun : t.register (.conj f g) = (⟨[("p", true), ("q", false), ("r", false)]⟩, .ok ()) := rfl
  obtain rfl : t₂ = ⟨[("p", true), ("q", false), ("r", false)]⟩ :=
    congrArg Prod.fst (hboth.symm.trans hrun)
  exact ⟨hf, hg, t₁, _, hfirst, hsecond, hboth, rfl⟩

end SymbolTable

end Sentential
