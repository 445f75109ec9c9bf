import Sentential.Proofs.Variables
import Sentential.Valuation.SymbolTable

/-!
# What is stored in a symbol table

Whatever is stored, and by whichever operation, a valid name ends up in the table: where it
stands if it is there, and at the end if it is new.  Adding the variables of a formula
extends the names of the table just as collecting the variables extends a list.

A new value replaces the old one if it is set, and counts for nothing if it is added.

## Main definitions

* `insertName` — a list of names with one that may be new.

## Main results

* `SymbolTable.exists_set_eq_ok`, `SymbolTable.exists_add_eq_ok` — a valid name is stored.
* `SymbolTable.exists_storeAll_eq_ok` — so are several.
* `SymbolTable.exists_register_eq_ok` — **the variables of a formula are collected into the
  names of the table.**
* `SymbolTable.register_eq_self` — a formula without new variables leaves no trace.
* `SymbolTable.lookup?_set`, `SymbolTable.lookup?_register` — the values after a variable is
  set, and after those of a formula are added.
-/

namespace Sentential

/-! ### Lists of names -/

/-- The names with `name` behind them if it is new. -/
def insertName (names : List String) (name : String) : List String :=
  if names.contains name then names else names ++ [name]

theorem mem_insertName {names : List String} {name x : String} :
    x ∈ insertName names name ↔ x ∈ names ∨ x = name := by
  unfold insertName
  split
  · rename_i h
    rw [List.contains_iff_mem] at h
    exact ⟨Or.inl, fun hx => hx.elim id fun hx => hx ▸ h⟩
  · rw [List.mem_append, List.mem_singleton]

theorem insertName_of_mem {names : List String} {name : String} (h : name ∈ names) :
    insertName names name = names :=
  if_pos (List.contains_iff_mem.mpr h)

theorem insertName_of_not_mem {names : List String} {name : String} (h : name ∉ names) :
    insertName names name = names ++ [name] :=
  if_neg fun hmem => h (List.contains_iff_mem.mp hmem)

/-- The first name of a kind in a list with one that may be new.  A name that is not new counts
where it stands. -/
theorem find?_insertName (p : String → Bool) (names : List String) (name : String) :
    (insertName names name).find? p
      = (names.find? p).or (if p name then some name else none) := by
  by_cases hmem : name ∈ names
  · rw [insertName_of_mem hmem]
    cases hp : p name with
    | true =>
      have hsome : (names.find? p).isSome = true := List.find?_isSome.mpr ⟨name, hmem, hp⟩
      rw [Option.or_of_isSome hsome]
    | false => rw [if_neg Bool.false_ne_true, Option.or_none]
  · rw [insertName_of_not_mem hmem, List.find?_append, List.find?_singleton]

theorem mem_foldl_insertName {x : String} {seen : List String} : ∀ {names : List String},
    x ∈ seen.foldl insertName names ↔ x ∈ names ∨ x ∈ seen := by
  induction seen with
  | nil => simp
  | cons name seen ih =>
    intro names
    rw [List.foldl_cons, ih, mem_insertName, List.mem_cons, or_assoc]

/-- **To insert the variables of a formula one by one is to collect them.** -/
theorem Formula.foldl_insertName_collect (f : Formula) : ∀ names seen : List String,
    (f.collect seen).foldl insertName names = f.collect (seen.foldl insertName names) := by
  induction f with
  | lit value => intro names seen; rfl
  | var name =>
    intro names seen
    show (insertName seen name).foldl insertName names
      = insertName (seen.foldl insertName names) name
    by_cases h : name ∈ seen
    · rw [insertName_of_mem h, insertName_of_mem (mem_foldl_insertName.mpr (.inr h))]
    · rw [insertName_of_not_mem h, List.foldl_append]
      rfl
  | neg a ih => exact ih
  | bin op a b iha ihb =>
    intro names seen
    rw [collect, ihb, iha, collect]

namespace SymbolTable

/-! ### Storing -/

/-- A name has a value exactly if it is one of the names. -/
theorem contains_iff_mem_names {t : SymbolTable} {name : String} :
    t.contains name = true ↔ name ∈ t.names := by
  simp only [contains, lookup?, names, List.lookup_isSome_iff, List.mem_map, beq_iff_eq,
    eq_comm (a := name)]

theorem map_fst_assign (name : String) (value : Bool) (entries : List (String × Bool)) :
    (assign name value entries).map Prod.fst = insertName (entries.map Prod.fst) name := by
  induction entries with
  | nil => rfl
  | cons entry rest ih =>
    by_cases hname : entry.1 = name
    · rw [insertName_of_mem (by simp [hname])]
      simp [assign, hname]
    · by_cases hrest : name ∈ rest.map Prod.fst
      · rw [insertName_of_mem hrest] at ih
        rw [insertName_of_mem (by rw [List.map_cons]; exact List.mem_cons_of_mem _ hrest)]
        simp [assign, hname, ih]
      · rw [insertName_of_not_mem hrest] at ih
        rw [insertName_of_not_mem (by simpa [Ne.symm hname] using hrest)]
        simp [assign, hname, ih]

/-- A valid name is stored with its value. -/
theorem exists_set_eq_ok {name : String} (h : isValidName name = true) (t : SymbolTable)
    (value : Bool) : ∃ t', t.set name value = .ok t' ∧ t'.names = insertName t.names name :=
  ⟨_, if_pos h, map_fst_assign name value t.entries⟩

/-- A valid name is stored unless it is there. -/
theorem exists_add_eq_ok {name : String} (h : isValidName name = true) (t : SymbolTable)
    (value : Bool) : ∃ t', t.add name value = .ok t' ∧ t'.names = insertName t.names name := by
  refine ⟨_, if_pos h, ?_⟩
  by_cases hname : name ∈ t.names
  · rw [if_pos (contains_iff_mem_names.mpr hname), insertName_of_mem hname]
  · rw [if_neg fun hcontains => hname (contains_iff_mem_names.mp hcontains),
      insertName_of_not_mem hname]
    exact List.map_append

/-- **Several valid names are stored**, one after the other. -/
theorem exists_storeAll_eq_ok {store : SymbolTable → String → Bool → Except InvalidName SymbolTable}
    (hstore : ∀ {name : String}, isValidName name = true → ∀ t value,
      ∃ t', store t name value = .ok t' ∧ t'.names = insertName t.names name) :
    ∀ (values : List (String × Bool)) (t : SymbolTable),
      (∀ entry ∈ values, isValidName entry.1 = true) →
      ∃ t', storeAll store t values = (t', .ok ()) ∧
        t'.names = (values.map Prod.fst).foldl insertName t.names := by
  intro values
  induction values with
  | nil => intro t _; exact ⟨t, rfl, rfl⟩
  | cons entry rest ih =>
    intro t h
    obtain ⟨t₁, hone, hnames⟩ := hstore (h entry List.mem_cons_self) t entry.2
    obtain ⟨t', hrest, hnames'⟩ := ih t₁ fun e he => h e (List.mem_cons_of_mem entry he)
    refine ⟨t', ?_, by rw [hnames', hnames]; rfl⟩
    rw [storeAll, hone]
    exact hrest

/-- **The variables of a formula are collected into the names of a table**, if they are
valid. -/
theorem exists_register_eq_ok {f : Formula}
    (h : ∀ name ∈ f.variableNames, isValidName name = true) (t : SymbolTable) :
    ∃ t', t.register f = (t', .ok ()) ∧ t'.names = f.collect t.names := by
  obtain ⟨t', hstore, hnames⟩ := exists_storeAll_eq_ok exists_add_eq_ok
    (f.variableNames.map fun name => (name, false)) t (by simpa using h)
  refine ⟨t', hstore, ?_⟩
  rw [hnames, List.map_map]
  show (f.variableNames.map id).foldl insertName t.names = f.collect t.names
  rw [List.map_id, Formula.variableNames, Formula.foldl_insertName_collect, List.foldl_nil]

/-- A valid name that is there already is added without a trace. -/
theorem add_eq_self {t : SymbolTable} {name : String} (hvalid : isValidName name = true)
    (hmem : name ∈ t.names) (value : Bool) : t.add name value = .ok t := by
  rw [add, if_pos hvalid, if_pos (contains_iff_mem_names.mpr hmem)]

/-- So are several. -/
theorem storeAll_add_eq_self {t : SymbolTable} : ∀ {names : List String},
    (∀ name ∈ names, isValidName name = true) → (∀ name ∈ names, name ∈ t.names) →
      storeAll add t (names.map fun name => (name, false)) = (t, .ok ()) := by
  intro names
  induction names with
  | nil => intro _ _; rfl
  | cons name rest ih =>
    intro hvalid hmem
    rw [List.forall_mem_cons] at hvalid hmem
    rw [List.map_cons, storeAll, add_eq_self hvalid.1 hmem.1]
    exact ih hvalid.2 hmem.2

/-- **A formula whose variables are all there leaves no trace**: the table keeps its names, their
values and their order. -/
theorem register_eq_self {t : SymbolTable} {f : Formula}
    (hvalid : ∀ name ∈ f.variableNames, isValidName name = true)
    (hmem : ∀ name ∈ f.variableNames, name ∈ t.names) : t.register f = (t, .ok ()) :=
  storeAll_add_eq_self hvalid hmem

/-! ### Values -/

theorem lookup_cons_of_ne {x : String} {entry : String × Bool} (h : x ≠ entry.1)
    (entries : List (String × Bool)) : (entry :: entries).lookup x = entries.lookup x := by
  rw [List.lookup_cons, beq_false_of_ne h]

theorem lookup_assign (name : String) (value : Bool) (entries : List (String × Bool))
    (x : String) :
    (assign name value entries).lookup x = if x = name then some value else entries.lookup x := by
  induction entries with
  | nil =>
    split
    · rename_i hx
      rw [hx, assign, List.lookup_cons_self]
    · rename_i hx
      exact lookup_cons_of_ne hx []
  | cons entry rest ih =>
    by_cases hname : entry.1 = name
    · rw [assign, if_pos (beq_iff_eq.mpr hname)]
      split
      · rename_i hx
        rw [hx, List.lookup_cons_self]
      · rename_i hx
        rw [lookup_cons_of_ne hx, lookup_cons_of_ne (hname ▸ hx)]
    · rw [assign, if_neg fun h => hname (beq_iff_eq.mp h)]
      by_cases hx : x = entry.1
      · rw [hx, if_neg hname, List.lookup_cons_self, List.lookup_cons_self]
      · rw [lookup_cons_of_ne hx, lookup_cons_of_ne hx, ih]

/-- A name that is set has the new value, and the others keep theirs. -/
theorem lookup?_set {t t' : SymbolTable} {name : String} {value : Bool}
    (h : t.set name value = .ok t') (x : String) :
    t'.lookup? x = if x = name then some value else t.lookup? x := by
  rw [set] at h
  split at h
  · rw [← Except.ok.inj h]
    exact lookup_assign name value t.entries x
  · cases h

/-- A name that is added keeps the value that it has, as the others do. -/
theorem lookup?_add {t t' : SymbolTable} {name : String} {value : Bool}
    (h : t.add name value = .ok t') (x : String) :
    t'.lookup? x = (t.lookup? x).or (if x = name then some value else none) := by
  rw [add] at h
  split at h
  · obtain rfl := Except.ok.inj h
    split
    · rename_i hcontains
      split
      · rename_i hx
        rw [hx, Option.or_of_isSome hcontains]
      · rw [Option.or_none]
    · have hone := lookup_assign name value [] x
      rw [lookup?, List.lookup_append]
      exact congrArg _ hone
  · cases h

/-- **Names that are added as false keep the values that they have.** -/
theorem lookup?_storeAll_add {x : String} : ∀ {names : List String} {t t' : SymbolTable},
    storeAll add t (names.map fun name => (name, false)) = (t', .ok ()) →
      t'.lookup? x = (t.lookup? x).or (if x ∈ names then some false else none) := by
  intro names
  induction names with
  | nil =>
    intro t t' h
    obtain rfl : t = t' := congrArg Prod.fst h
    simp
  | cons name rest ih =>
    intro t t' h
    rw [List.map_cons, storeAll] at h
    split at h
    · rename_i t₁ hadd
      rw [ih h, lookup?_add hadd, Option.or_assoc]
      congr 1
      by_cases hx : x = name <;> simp [hx]
    · cases congrArg Prod.snd h

/-- After the variables of a formula are added, those that are new are false. -/
theorem lookup?_register {t t' : SymbolTable} {f : Formula} (h : t.register f = (t', .ok ()))
    (x : String) :
    t'.lookup? x = (t.lookup? x).or (if x ∈ f.variableNames then some false else none) :=
  lookup?_storeAll_add h

end SymbolTable

end Sentential
