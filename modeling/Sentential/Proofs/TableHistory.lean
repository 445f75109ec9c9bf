import Mathlib.Data.List.DropRight
import Sentential.Proofs.Symbols

/-!
# Histories of a symbol table

Every change of a symbol table, but for its clearing, stores names one by one, and stops in
front of the first name that is not valid.  So a table can be told from what has been stored
since it was last cleared.  Its names are those that were stored, in the order in which each
came first.  A name has the value that it was set to last, and else the one with which it was
added first, as only setting replaces a value that is there.

## Main definitions

* `Storing`, `SymbolTable.store` — one name is stored with a value.
* `TableEdit.storings`, `TableEdit.stored` — what a change is to store, and what it does.
* `SymbolTable.refusal` — the report on the first name that is not valid.
* `sinceClear`, `storedSinceClear` — the changes since the table was last cleared, and what
  they have stored.
* `Storing.lastSet?`, `Storing.firstAdded?` — the two values that count for a name.

## Main results

* `SymbolTable.edit_eq` — what a change does.
* `SymbolTable.names_foldl_store`, `SymbolTable.lookup?_foldl_store` — the names and the values
  after several storings.
* `SymbolTable.run_empty_eq` — the table after any changes.
* `SymbolTable.table_determined_by_edits` — **a table is determined by what was stored since it
  was last cleared.**
-/

namespace Sentential

/-! ### Searching from the right -/

theorem findSome?_reverse_append_singleton {α β : Type} (f : α → Option β) (l : List α)
    (a : α) : (l ++ [a]).reverse.findSome? f = (f a).or (l.reverse.findSome? f) := by
  rw [List.reverse_append, List.reverse_singleton, List.singleton_append, List.findSome?_cons]
  cases f a <;> rfl

/-! ### Names without repetition -/

theorem nodup_insertName {names : List String} (h : names.Nodup) (name : String) :
    (insertName names name).Nodup := by
  by_cases hname : name ∈ names
  · rwa [insertName_of_mem hname]
  · rw [insertName_of_not_mem hname, List.nodup_append]
    refine ⟨h, List.pairwise_singleton _ name, ?_⟩
    rintro x hx y hy rfl
    exact hname (List.mem_singleton.mp hy ▸ hx)

/-- No variable is collected twice. -/
theorem Formula.nodup_collect (f : Formula) : ∀ {seen : List String}, seen.Nodup →
    (f.collect seen).Nodup := by
  induction f with
  | lit value => exact fun h => h
  | var name => exact fun h => nodup_insertName h name
  | neg a ih => exact ih
  | bin op a b iha ihb => exact fun h => ihb (iha h)

theorem Formula.nodup_variableNames (f : Formula) : f.variableNames.Nodup :=
  f.nodup_collect List.nodup_nil

/-- The names of a list, each where it comes first, from those in front of the last. -/
theorem eraseDups_append_singleton (names : List String) (name : String) :
    (names ++ [name]).eraseDups = insertName names.eraseDups name := by
  rw [List.eraseDups_append]
  by_cases hname : name ∈ names
  · rw [insertName_of_mem (List.mem_eraseDups.mpr hname)]
    simp [List.removeAll, hname]
  · rw [insertName_of_not_mem fun h => hname (List.mem_eraseDups.mp h)]
    simp [List.removeAll, hname, List.eraseDups_cons]

theorem foldl_insertName_nil (names : List String) :
    names.foldl insertName [] = names.eraseDups := by
  induction names using List.reverseRecOn with
  | nil => rfl
  | append_singleton names name ih =>
    rw [List.foldl_append, ih, eraseDups_append_singleton]
    rfl

/-- **Names that are inserted one by one come behind those that are there**, without these. -/
theorem foldl_insertName_eq_append (names seen : List String) :
    names.foldl insertName seen = seen ++ names.eraseDups.removeAll seen := by
  induction names using List.reverseRecOn with
  | nil => simp [List.removeAll]
  | append_singleton names name ih =>
    rw [List.foldl_append, List.foldl_cons, List.foldl_nil, eraseDups_append_singleton]
    by_cases hnames : name ∈ names
    · have hmem : name ∈ names.foldl insertName seen := mem_foldl_insertName.mpr (.inr hnames)
      rw [insertName_of_mem hmem, insertName_of_mem (List.mem_eraseDups.mpr hnames), ih]
    · rw [insertName_of_not_mem fun h => hnames (List.mem_eraseDups.mp h), List.removeAll,
        List.filter_append, ← List.append_assoc]
      by_cases hseen : name ∈ seen
      · rw [insertName_of_mem (mem_foldl_insertName.mpr (.inl hseen)), ih]
        simp [List.removeAll, hseen]
      · have hnew : name ∉ names.foldl insertName seen := fun h =>
          (mem_foldl_insertName.mp h).elim hseen hnames
        rw [insertName_of_not_mem hnew, ih]
        simp [List.removeAll, hseen]

theorem nodup_eraseDups (names : List String) : names.eraseDups.Nodup := by
  induction names using List.reverseRecOn with
  | nil => exact List.nodup_nil
  | append_singleton names name ih =>
    rw [eraseDups_append_singleton]
    exact nodup_insertName ih name

theorem eraseDups_eq_self {names : List String} (h : names.Nodup) : names.eraseDups = names := by
  induction names using List.reverseRecOn with
  | nil => rfl
  | append_singleton names name ih =>
    rw [List.nodup_append] at h
    have hname : name ∉ names := fun hmem => h.2.2 name hmem name List.mem_cons_self rfl
    rw [eraseDups_append_singleton, ih h.1, insertName_of_not_mem hname]

/-! ### What is stored -/

/-- One name is stored with a value. -/
structure Storing where
  /-- The name. -/
  name : String
  /-- The value. -/
  value : Bool
  /-- Whether the value replaces one that is there. -/
  replaces : Bool
  deriving DecidableEq, Repr

namespace Storing

/-- The value that `name` is set to by a storing, if it is. -/
def setTo? (name : String) (s : Storing) : Option Bool :=
  if s.replaces = true ∧ name = s.name then some s.value else none

/-- The value with which `name` is added by a storing, if it is new then. -/
def addedAs? (name : String) (s : Storing) : Option Bool :=
  if s.replaces = false ∧ name = s.name then some s.value else none

/-- The value that `name` is set to last. -/
def lastSet? (name : String) (storings : List Storing) : Option Bool :=
  storings.reverse.findSome? (setTo? name)

/-- The value with which `name` is added first. -/
def firstAdded? (name : String) (storings : List Storing) : Option Bool :=
  storings.findSome? (addedAs? name)

end Storing

namespace TableEdit

/-- What a change is to store, in order. -/
def storings : TableEdit → List Storing
  | .add name value => [⟨name, value, false⟩]
  | .set name value => [⟨name, value, true⟩]
  | .setAll values => values.map fun entry => ⟨entry.1, entry.2, true⟩
  | .register f => f.variableNames.map fun name => ⟨name, false, false⟩
  | .clear => []

/-- What a change does store: all that is in front of the first name that is not valid. -/
def stored (e : TableEdit) : List Storing := e.storings.takeWhile fun s => isValidName s.name

end TableEdit

/-- The changes behind the last one that clears the table, all of them if none does. -/
def sinceClear (edits : List TableEdit) : List TableEdit := edits.rtakeWhile fun e => e ≠ .clear

/-- What has been stored since the table was last cleared. -/
def storedSinceClear (edits : List TableEdit) : List Storing :=
  (sinceClear edits).flatMap TableEdit.stored

theorem storedSinceClear_append_singleton (edits : List TableEdit) (e : TableEdit) :
    storedSinceClear (edits ++ [e])
      = if e = .clear then [] else storedSinceClear edits ++ e.stored := by
  rw [storedSinceClear, sinceClear, List.rtakeWhile_concat]
  by_cases he : e = .clear <;> simp [he, storedSinceClear, sinceClear]

/-- Only valid names are stored. -/
theorem isValidName_of_mem_storedSinceClear {edits : List TableEdit} {s : Storing}
    (h : s ∈ storedSinceClear edits) : isValidName s.name = true := by
  obtain ⟨e, -, hs⟩ := List.mem_flatMap.mp h
  exact List.mem_takeWhile_imp (p := fun s : Storing => isValidName s.name) hs

namespace SymbolTable

/-! ### One storing -/

/-- A table after a valid name is stored in it. -/
def store (t : SymbolTable) (s : Storing) : SymbolTable :=
  if s.replaces then ⟨assign s.name s.value t.entries⟩
  else if t.contains s.name then t else ⟨t.entries ++ [(s.name, s.value)]⟩

theorem set_eq (t : SymbolTable) (name : String) (value : Bool) :
    t.set name value
      = if isValidName name then .ok (t.store ⟨name, value, true⟩) else .error ⟨name⟩ := rfl

theorem add_eq (t : SymbolTable) (name : String) (value : Bool) :
    t.add name value
      = if isValidName name then .ok (t.store ⟨name, value, false⟩) else .error ⟨name⟩ := rfl

theorem names_store (t : SymbolTable) (s : Storing) :
    (t.store s).names = insertName t.names s.name := by
  unfold store
  split
  · exact map_fst_assign s.name s.value t.entries
  · split
    · rename_i h
      rw [insertName_of_mem (contains_iff_mem_names.mp h)]
    · rename_i h
      rw [insertName_of_not_mem fun hmem => h (contains_iff_mem_names.mpr hmem)]
      exact List.map_append

/-- A name that is set has the new value; one that is added has it if it had none. -/
theorem lookup?_store (t : SymbolTable) (s : Storing) (name : String) :
    (t.store s).lookup? name = ((s.setTo? name).or (t.lookup? name)).or (s.addedAs? name) := by
  unfold store Storing.setTo? Storing.addedAs?
  cases s.replaces with
  | true =>
    rw [if_pos rfl, lookup?, lookup_assign]
    by_cases hname : name = s.name <;> simp [hname, lookup?]
  | false =>
    by_cases hcontains : t.contains s.name = true
    · by_cases hname : name = s.name
      · subst hname
        simp [hcontains, Option.or_of_isSome hcontains]
      · simp [hcontains, hname]
    · have hone := lookup_assign s.name s.value [] name
      simp only [Bool.false_eq_true, if_false, hcontains, lookup?, List.lookup_append]
      rw [show [(s.name, s.value)].lookup name = _ from hone]
      simp

/-! ### Several storings -/

/-- The names that are stored are inserted into those of the table. -/
theorem names_foldl_store_eq_foldl (storings : List Storing) : ∀ t : SymbolTable,
    (storings.foldl store t).names = (storings.map Storing.name).foldl insertName t.names := by
  induction storings with
  | nil => exact fun t => rfl
  | cons s storings ih =>
    intro t
    rw [List.foldl_cons, ih, names_store, List.map_cons, List.foldl_cons]

theorem names_foldl_store (storings : List Storing) :
    (storings.foldl store empty).names = (storings.map Storing.name).eraseDups := by
  rw [names_foldl_store_eq_foldl]
  exact foldl_insertName_nil _

/-- **The value of a name after several storings** is that to which it was set last, else that
with which it was added first. -/
theorem lookup?_foldl_store (storings : List Storing) (name : String) :
    (storings.foldl store empty).lookup? name
      = (Storing.lastSet? name storings).or (Storing.firstAdded? name storings) := by
  induction storings using List.reverseRecOn with
  | nil => rfl
  | append_singleton storings s ih =>
    have hset : Storing.lastSet? name (storings ++ [s])
        = (s.setTo? name).or (Storing.lastSet? name storings) :=
      findSome?_reverse_append_singleton _ storings s
    have hadded : Storing.firstAdded? name (storings ++ [s])
        = (Storing.firstAdded? name storings).or (s.addedAs? name) := by
      rw [Storing.firstAdded?, List.findSome?_append, List.findSome?_singleton]
      rfl
    rw [List.foldl_append, List.foldl_cons, List.foldl_nil, lookup?_store, ih, hset, hadded,
      Option.or_assoc, Option.or_assoc, Option.or_assoc]

/-- The names of a table stay where they are when more are stored. -/
theorem names_isPrefix_foldl_store (storings : List Storing) (t : SymbolTable) :
    t.names <+: (storings.foldl store t).names := by
  rw [names_foldl_store_eq_foldl, foldl_insertName_eq_append]
  exact List.prefix_append _ _

/-! ### One change -/

/-- The report on the first of several names that is not valid, if there is one. -/
def refusal (names : List String) : Except InvalidName Unit :=
  match names.find? fun name => !isValidName name with
  | none => .ok ()
  | some name => .error ⟨name⟩

theorem refusal_cons_of_valid {name : String} (h : isValidName name = true)
    (names : List String) : refusal (name :: names) = refusal names := by
  simp [refusal, h]

theorem refusal_cons_of_not_valid {name : String} (h : isValidName name = false)
    (names : List String) : refusal (name :: names) = .error ⟨name⟩ := by
  simp [refusal, h]

/-- **Names are stored one after the other up to the first that is not valid.** -/
theorem storeAll_eq {storeOne : SymbolTable → String → Bool → Except InvalidName SymbolTable}
    {replaces : Bool} (hone : ∀ t name value, storeOne t name value
      = if isValidName name then .ok (t.store ⟨name, value, replaces⟩) else .error ⟨name⟩)
    (values : List (String × Bool)) : ∀ t : SymbolTable,
    storeAll storeOne t values
      = (((values.map fun entry => (⟨entry.1, entry.2, replaces⟩ : Storing)).takeWhile
            fun s => isValidName s.name).foldl store t,
          refusal (values.map Prod.fst)) := by
  induction values with
  | nil => exact fun t => rfl
  | cons entry rest ih =>
    intro t
    obtain ⟨name, value⟩ := entry
    rw [storeAll, hone]
    cases hvalid : isValidName name with
    | false => simp [hvalid, refusal_cons_of_not_valid hvalid]
    | true => simp [hvalid, ih, refusal_cons_of_valid hvalid]

/-- **What a change does**, if it does not clear the table: what is in front of the first name
that is not valid is stored, and that name is reported. -/
theorem edit_eq (t : SymbolTable) {e : TableEdit} (he : e ≠ .clear) :
    t.edit e = (e.stored.foldl store t, refusal (e.storings.map Storing.name)) := by
  cases e with
  | add name value =>
    rw [edit, add_eq, TableEdit.stored, TableEdit.storings]
    cases hvalid : isValidName name <;> simp [orKeep, refusal, hvalid]
  | set name value =>
    rw [edit, set_eq, TableEdit.stored, TableEdit.storings]
    cases hvalid : isValidName name <;> simp [orKeep, refusal, hvalid]
  | setAll values =>
    rw [edit, setAll, storeAll_eq set_eq, TableEdit.stored, TableEdit.storings, List.map_map]
    rfl
  | register f =>
    rw [edit, register, storeAll_eq add_eq, TableEdit.stored, TableEdit.storings, List.map_map,
      List.map_map, List.map_map]
    rfl
  | clear => exact absurd rfl he

/-! ### Several changes -/

theorem run_append (t : SymbolTable) (edits edits' : List TableEdit) :
    t.run (edits ++ edits') = (t.run edits).run edits' :=
  List.foldl_append

/-- **The table after any changes** is what is left of an empty one by all that was stored since
it was last cleared. -/
theorem run_empty_eq (edits : List TableEdit) :
    empty.run edits = (storedSinceClear edits).foldl store empty := by
  induction edits using List.reverseRecOn with
  | nil => rfl
  | append_singleton edits e ih =>
    rw [run_append, ih, storedSinceClear_append_singleton]
    by_cases he : e = .clear
    · rw [if_pos he, he]
      rfl
    · rw [if_neg he, List.foldl_append]
      exact congrArg Prod.fst (edit_eq _ he)

/-- To store several names up to the first that is not valid is to make a change for each of
them. -/
theorem run_takeWhile {α : Type} (storing : α → Storing) (edit : α → TableEdit)
    (hedit : ∀ a, (edit a).storings = [storing a]) (items : List α) : ∀ t : SymbolTable,
    t.run ((items.takeWhile fun a => isValidName (storing a).name).map edit)
      = ((items.map storing).takeWhile fun s => isValidName s.name).foldl store t := by
  induction items with
  | nil => exact fun t => rfl
  | cons a items ih =>
    intro t
    cases hvalid : isValidName (storing a).name with
    | false => simp [hvalid, run]
    | true =>
      have hclear : edit a ≠ .clear := by
        intro h
        have hnil := hedit a
        rw [h] at hnil
        cases hnil
      have hone : (t.edit (edit a)).1 = t.store (storing a) := by
        rw [edit_eq t hclear, TableEdit.stored, hedit]
        simp [hvalid]
      simp only [List.map_cons, List.takeWhile_cons, hvalid, if_true, List.foldl_cons, ← ih, ← hone]
      rfl

/-- Each entry of a table without repeated names shows the value of its name. -/
theorem lookup?_of_mem_entries {t : SymbolTable} (h : t.names.Nodup) {entry : String × Bool}
    (hentry : entry ∈ t.entries) : t.lookup? entry.1 = some entry.2 := by
  obtain ⟨entries⟩ := t
  show entries.lookup entry.1 = some entry.2
  replace h : (entries.map Prod.fst).Nodup := h
  induction entries with
  | nil => cases hentry
  | cons first rest ih =>
    rw [List.map_cons, List.nodup_cons] at h
    rcases List.mem_cons.mp hentry with rfl | hrest
    · exact List.lookup_cons_self
    · have hne : entry.1 ≠ first.1 := fun heq => h.1 (heq ▸ List.mem_map_of_mem hrest)
      rw [lookup_cons_of_ne hne]
      exact ih hrest h.2

/-- **A table is determined by what was stored since it was last cleared.**  Its names are valid
and come in the order in which each was first stored.  A name has the value that it was set to
last, and else the value with which it was first added.  And whatever the table is, a change
other than clearing it leaves its names where they are; to add or to set a name that is not
valid does nothing else than to report it; and to set several names, or to add the variables of
a formula, does what setting or adding those in front of the first that is not valid does, and
reports that one. -/
theorem table_determined_by_edits (edits : List TableEdit) :
    (empty.run edits).names.Nodup ∧
    (∀ name ∈ (empty.run edits).names, name ≠ "" ∧ name ≠ "T" ∧ name ≠ "F") ∧
    (empty.run edits).names = ((storedSinceClear edits).map Storing.name).eraseDups ∧
    (∀ name, (empty.run edits).lookup? name
      = (Storing.lastSet? name (storedSinceClear edits)).or
          (Storing.firstAdded? name (storedSinceClear edits))) ∧
    (∀ entry ∈ (empty.run edits).entries, (empty.run edits).lookup? entry.1 = some entry.2) ∧
    ∀ t : SymbolTable,
      (∀ e, e ≠ .clear → t.names <+: (t.edit e).1.names) ∧
      (∀ name value, isValidName name = false →
        t.edit (.add name value) = (t, .error ⟨name⟩) ∧
        t.edit (.set name value) = (t, .error ⟨name⟩)) ∧
      (∀ values, t.edit (.setAll values)
        = (t.run ((values.takeWhile fun entry => isValidName entry.1).map fun entry =>
            .set entry.1 entry.2), refusal (values.map Prod.fst))) ∧
      ∀ f, t.edit (.register f)
        = (t.run ((f.variableNames.takeWhile isValidName).map fun name => .add name false),
            refusal f.variableNames) := by
  have hnames : (empty.run edits).names = ((storedSinceClear edits).map Storing.name).eraseDups := by
    rw [run_empty_eq, names_foldl_store]
  have hnodup : (empty.run edits).names.Nodup := by
    rw [hnames]
    exact nodup_eraseDups _
  refine ⟨hnodup, fun name hname => ?_, hnames, fun name => ?_,
    fun entry hentry => lookup?_of_mem_entries hnodup hentry, fun t =>
      ⟨fun e he => ?_, fun name value hname => ?_, fun values => ?_, fun f => ?_⟩⟩
  · rw [hnames, List.mem_eraseDups] at hname
    obtain ⟨s, hs, rfl⟩ := List.mem_map.mp hname
    simpa [isValidName, and_assoc] using isValidName_of_mem_storedSinceClear hs
  · rw [run_empty_eq, lookup?_foldl_store]
  · rw [edit_eq t he]
    exact names_isPrefix_foldl_store e.stored t
  · constructor
    · simp [edit, add_eq, hname, orKeep]
    · simp [edit, set_eq, hname, orKeep]
  · have hrun := run_takeWhile (fun entry : String × Bool => ⟨entry.1, entry.2, true⟩)
      (fun entry => .set entry.1 entry.2) (fun _ => rfl) values t
    rw [hrun, edit_eq t (by simp), TableEdit.storings, List.map_map]
    rfl
  · have hrun := run_takeWhile (fun name => ⟨name, false, false⟩) (fun name => .add name false)
      (fun _ => rfl) f.variableNames t
    rw [hrun, edit_eq t (by simp), TableEdit.storings, List.map_map]
    exact congrArg (Prod.mk _) (congrArg refusal (List.map_id _))

/-- After the table is cleared, `q` is added as true and `p` is set; then `q` is to become false,
`T` true and `r` true, which stops at `T`; then the variables of `p∧s` are added, and `q` once
more.  The table has `q`, `p` and `s` in this order, with the values false, true and false. -/
theorem table_determined_by_edits_stopped_at_literal :
    ∃ t : SymbolTable, empty.run [.set "z" true, .clear, .add "q" true, .set "p" true,
        .setAll [("q", false), ("T", true), ("r", true)],
        .register (.conj (.var "p") (.var "s")), .add "q" true] = t ∧
      t.names = ["q", "p", "s"] ∧ t.lookup? "q" = some false ∧ t.lookup? "p" = some true ∧
      t.lookup? "s" = some false ∧ t.lookup? "r" = none ∧ t.lookup? "z" = none ∧
      ("q" ≠ "" ∧ "q" ≠ "T" ∧ "q" ≠ "F") ∧
      t.names <+: (t.edit (.set "a" true)).1.names ∧
      t.edit (.add "" true) = (t, .error ⟨""⟩) ∧
      t.edit (.setAll [("q", true), ("F", true), ("p", false)])
        = (t.run [.set "q" true], .error ⟨"F"⟩) := by
  obtain ⟨-, hvalid, hnames, hvalues, -, hchange⟩ := table_determined_by_edits
    [.set "z" true, .clear, .add "q" true, .set "p" true,
      .setAll [("q", false), ("T", true), ("r", true)],
      .register (.conj (.var "p") (.var "s")), .add "q" true]
  obtain ⟨hkeep, hrefuse, hseveral, -⟩ := hchange (empty.run _)
  refine ⟨_, rfl, hnames, (hvalues "q").trans rfl, (hvalues "p").trans rfl,
    (hvalues "s").trans rfl, (hvalues "r").trans rfl, (hvalues "z").trans rfl,
    hvalid "q" (by rw [hnames]; decide), hkeep _ (by decide), (hrefuse "" true (by decide)).1,
    hseveral _⟩

end SymbolTable

end Sentential
