import Sentential.CommandLine.Run
import Sentential.Proofs.Histories
import Sentential.Proofs.NormalFormDepth
import Sentential.Proofs.PrintedTrees
import Sentential.Proofs.TableHistory
import Sentential.Proofs.TableauDrawings

/-!
# What the program prints

A report is printed part by part, and each of its parts could fail.  None of them does: a formula
that is read has only names that can be stored, so no assignment is refused, each variable has a
value when the evaluation tree is made, and the normal form has a tableau.  So a run fails before
anything is printed, because the formula cannot be read, or it prints the whole report.

The report is about the formula under one assignment, which can be told from the formula and the
values that are given.  From these its text can be told too, up to the tableau, which is told from
its nodes.

## Main definitions

* `Report.listedNames`, `Report.lastValue`, `Report.listing` — the variables of a report with
  their values.
* `Report.factsText`, `Report.rootText`, `Report.evaluationText`, `Report.branchingText` — what is
  in a report in front of the variables, in the line of the root, in the lines of all
  subformulas, and in those of the tableau.

## Main results

* `Report.symbols_eq_listing` — what is left of an empty table after the variables of a formula
  are added and then some names are set.
* `Report.listing_of_perm` — the order of the values does not matter if the names differ and
  occur in the formula.
* `Report.print_eq_ok` — the report on a text that can be read.
* `Report.unlines_factLines`, `Report.unlines_variableLines`, `Report.treeText_eq_evaluationText`,
  `Report.tableauText_eq` — the text of its parts.
* `CommandLine.report_or_complaint` — **a run prints the whole report or nothing.**
-/

namespace Sentential

/-! ### Assignments -/

/-- A name is only accepted on the command line if it can be stored. -/
theorem CommandLine.isValidName_of_assignment? {text : String} {entry : String × Bool}
    (h : assignment? text = some entry) : isValidName entry.1 = true := by
  unfold assignment? at h
  split at h
  · cases h
  · split at h
    · rename_i hvalid
      obtain ⟨value, -, rfl⟩ := Option.map_eq_some_iff.mp h
      exact hvalid
    · cases h

/-! ### Evaluation trees -/

/-- A formula has an evaluation tree in the tables that have its variables, and the tree has the
value of the formula at its root. -/
theorem Formula.exists_evaluateTree_eq_ok {env : SymbolTable} {f : Formula}
    (h : ∀ name ∈ f.variableNames, name ∈ env.names) :
    ∃ tree, f.evaluateTree env = .ok tree ∧ f.evaluate env = .ok tree.value := by
  obtain ⟨value, hvalue⟩ := exists_evaluate_eq_ok_iff.mpr h
  rw [← map_value_evaluateTree] at hvalue
  obtain ⟨tree, htree, -⟩ := exists_of_map_eq_ok hvalue
  exact ⟨tree, htree, (root_of_evaluateTree htree).2.1⟩

namespace Report

/-! ### The variables of a report -/

/-- The names in a report: the variables of the formula, and behind them the other names that
are given values, in the order in which each comes first. -/
def listedNames (f : Formula) (values : List (String × Bool)) : List String :=
  f.variableNames
    ++ ((values.map Prod.fst).filter fun name => !f.variableNames.contains name).eraseDups

/-- The value that a name is given last, and false if it is given none. -/
def lastValue (values : List (String × Bool)) (name : String) : Bool :=
  (values.reverse.lookup name).getD false

/-- The variables of a report with their values. -/
def listing (f : Formula) (values : List (String × Bool)) : List (String × Bool) :=
  (listedNames f values).map fun name => (name, lastValue values name)

theorem names_listing (f : Formula) (values : List (String × Bool)) :
    (SymbolTable.mk (listing f values)).names = listedNames f values := by
  show ((listedNames f values).map fun name => (name, lastValue values name)).map Prod.fst = _
  rw [List.map_map]
  exact List.map_id _

/-- What is stored for a report: the variables of the formula are added as false, and then the
values are set. -/
def storings (f : Formula) (values : List (String × Bool)) : List Storing :=
  (f.variableNames.map fun name => ⟨name, false, false⟩)
    ++ values.map fun entry => ⟨entry.1, entry.2, true⟩

theorem eraseDups_names_storings (f : Formula) (values : List (String × Bool)) :
    ((storings f values).map Storing.name).eraseDups = listedNames f values := by
  have hnames : (storings f values).map Storing.name = f.variableNames ++ values.map Prod.fst := by
    rw [storings, List.map_append, List.map_map, List.map_map]
    exact congrArg (· ++ values.map Prod.fst) (List.map_id _)
  rw [hnames, List.eraseDups_append, eraseDups_eq_self f.nodup_variableNames]
  rfl

/-- A value that is set last is one that is given last. -/
theorem lastSet?_storings (f : Formula) (values : List (String × Bool)) (name : String) :
    Storing.lastSet? name (storings f values) = values.reverse.lookup name := by
  have hadded : ((f.variableNames.map fun name => (⟨name, false, false⟩ : Storing)).reverse.findSome?
      (Storing.setTo? name)) = none := by
    rw [List.findSome?_eq_none_iff]
    intro s hs
    obtain ⟨x, -, rfl⟩ := List.mem_map.mp (List.mem_reverse.mp hs)
    simp [Storing.setTo?]
  rw [Storing.lastSet?, storings, List.reverse_append, List.findSome?_append, hadded,
    Option.or_none, ← List.map_reverse, List.findSome?_map, List.lookup_eq_findSome?]
  congr 1
  funext entry
  simp [Storing.setTo?]

/-- No variable is added as true. -/
theorem firstAdded?_storings (f : Formula) (values : List (String × Bool)) (name : String) :
    (Storing.firstAdded? name (storings f values)).getD false = false := by
  cases hadded : Storing.firstAdded? name (storings f values) with
  | none => rfl
  | some value =>
    obtain ⟨s, hs, hvalue⟩ := List.exists_of_findSome?_eq_some hadded
    rw [Storing.addedAs?] at hvalue
    split at hvalue
    · rename_i hs'
      rcases List.mem_append.mp hs with hs | hs
      · obtain ⟨x, -, rfl⟩ := List.mem_map.mp hs
        exact (Option.some.inj hvalue).symm
      · obtain ⟨entry, -, rfl⟩ := List.mem_map.mp hs
        cases hs'.1
    · cases hvalue

/-- **What is left of an empty table** after the variables of a formula are added and then some
names are set. -/
theorem symbols_eq_listing (f : Formula) (values : List (String × Bool)) :
    (storings f values).foldl SymbolTable.store .empty = ⟨listing f values⟩ := by
  obtain ⟨entries, ht⟩ : ∃ entries,
      (storings f values).foldl SymbolTable.store .empty = ⟨entries⟩ := ⟨_, rfl⟩
  have hnames := SymbolTable.names_foldl_store (storings f values)
  have hvalues := SymbolTable.lookup?_foldl_store (storings f values)
  rw [eraseDups_names_storings] at hnames
  rw [ht] at hnames hvalues ⊢
  have hnodup : (SymbolTable.mk entries).names.Nodup := by
    rw [hnames, ← eraseDups_names_storings]
    exact nodup_eraseDups _
  -- each entry shows the value that its name is given last
  have hentry : ∀ entry ∈ entries, (entry.1, lastValue values entry.1) = entry := by
    intro entry hentry
    have hlookup := SymbolTable.lookup?_of_mem_entries hnodup hentry
    rw [hvalues, lastSet?_storings] at hlookup
    have hadded := firstAdded?_storings f values entry.1
    refine Prod.ext rfl ?_
    show (values.reverse.lookup entry.1).getD false = entry.2
    cases hset : values.reverse.lookup entry.1 with
    | some value =>
      rw [hset, Option.some_or] at hlookup
      exact Option.some.inj hlookup
    | none =>
      rw [hset, Option.none_or] at hlookup
      rw [hlookup] at hadded
      exact hadded.symm
  have hself : (entries.map Prod.fst).map (fun name => (name, lastValue values name)) = entries := by
    rw [List.map_map]
    exact (List.map_congr_left hentry).trans (List.map_id entries)
  rw [listing, ← hnames]
  exact congrArg SymbolTable.mk hself.symm

/-- **The order of the values does not matter** if the names differ and occur in the formula. -/
theorem listing_of_perm {f : Formula} {values values' : List (String × Bool)}
    (hperm : values.Perm values') (hnodup : (values.map Prod.fst).Nodup)
    (hvariables : ∀ entry ∈ values, entry.1 ∈ f.variableNames) :
    listing f values' = listing f values := by
  have hnames : ∀ values : List (String × Bool),
      (∀ entry ∈ values, entry.1 ∈ f.variableNames) → listedNames f values = f.variableNames := by
    intro values h
    have hnone : ((values.map Prod.fst).filter fun name => !f.variableNames.contains name) = [] := by
      rw [List.filter_eq_nil_iff]
      intro name hname
      obtain ⟨entry, hentry, rfl⟩ := List.mem_map.mp hname
      simpa using h entry hentry
    rw [listedNames, hnone, List.eraseDups_nil, List.append_nil]
  -- a name is looked up in either list by the only entry with this name
  have hlookup : ∀ values : List (String × Bool), (values.map Prod.fst).Nodup → ∀ name value,
      values.reverse.lookup name = some value ↔ (name, value) ∈ values := by
    intro values h name value
    have hreverse : (SymbolTable.mk values.reverse).names.Nodup := by
      show (values.reverse.map Prod.fst).Nodup
      rw [List.map_reverse]
      exact (List.reverse_perm _).nodup_iff.mpr h
    constructor
    · intro hsome
      obtain ⟨before, after, heq, -⟩ := List.lookup_eq_some_iff.mp hsome
      rw [← List.mem_reverse, heq]
      exact List.mem_append_right before List.mem_cons_self
    · exact fun hmem => SymbolTable.lookup?_of_mem_entries hreverse (List.mem_reverse.mpr hmem)
  have hvalue : ∀ name, lastValue values' name = lastValue values name := by
    intro name
    have hsame : values'.reverse.lookup name = values.reverse.lookup name := by
      refine Option.ext fun value => ?_
      rw [hlookup values hnodup, hlookup values' ((hperm.map Prod.fst).nodup_iff.mp hnodup),
        hperm.mem_iff]
    rw [lastValue, hsame, lastValue]
  rw [listing, listing, hnames values hvariables,
    hnames values' fun entry hentry => hvariables entry (hperm.mem_iff.mpr hentry)]
  exact List.map_congr_left fun name _ => by rw [hvalue]

/-! ### The session of a report -/

/-- Valid names are all set. -/
theorem assignAll_eq_ok {values : List (String × Bool)} : ∀ {s : Session},
    (∀ entry ∈ values, isValidName entry.1 = true) →
    assignAll s values = .ok ⟨s.limit, (values.map fun entry =>
      (⟨entry.1, entry.2, true⟩ : Storing)).foldl SymbolTable.store s.symbols, s.formula?⟩ := by
  induction values with
  | nil => exact fun _ => rfl
  | cons entry rest ih =>
    intro s h
    have hset : s.symbols.set entry.1 entry.2
        = .ok (s.symbols.store ⟨entry.1, entry.2, true⟩) := by
      rw [SymbolTable.set_eq, if_pos (h entry List.mem_cons_self)]
    rw [assignAll, Session.setVariable, hset]
    exact ih fun e he => h e (List.mem_cons_of_mem entry he)

/-- The session of a text that can be read has the listing as its table. -/
theorem session_eq_ok {typed : String} {f : Formula} {values : List (String × Bool)}
    (htyped : typed ≠ "") (hparse : parse defaultLimit typed.toList = .ok f)
    (hvalid : ∀ entry ∈ values, isValidName entry.1 = true) :
    session typed values = .ok ⟨defaultLimit, ⟨listing f values⟩, some f⟩ := by
  obtain ⟨symbols, hregister, -, hupdate⟩ :=
    Session.update_of_parse_eq_ok (s := .new defaultLimit) htyped hparse
  have hadded : (f.variableNames.map fun name => (⟨name, false, false⟩ : Storing)).foldl
      SymbolTable.store .empty = symbols := by
    have hedit := SymbolTable.edit_eq .empty (e := .register f) (by simp)
    have hall : (TableEdit.register f).stored
        = f.variableNames.map fun name => ⟨name, false, false⟩ := by
      refine List.takeWhile_eq_self_iff.mpr fun s hs => ?_
      obtain ⟨name, hname, rfl⟩ := List.mem_map.mp hs
      exact isValidName_of_parse hparse name hname
    rw [hall] at hedit
    exact (congrArg Prod.fst (hedit.symm.trans hregister))
  rw [session, hupdate]
  show assignAll _ values = _
  rw [assignAll_eq_ok hvalid, ← symbols_eq_listing, storings, List.foldl_append, hadded]
  rfl

/-! ### What stands in a report -/

/-- The facts about a formula that was typed as `typed`. -/
def factsText (typed : String) (f : Formula) : String :=
  "Formula: " ++ String.ofList (displayForm typed.toList) ++ "\n" ++
    (if f.isBinary then "Main connective: " ++ String.ofList f.sign ++ "\n" else "") ++
    ("Nodes: " ++ toString f.size ++ "  Binary operators: " ++ toString (f.count (·.isBinary)) ++
      "\n")

/-- The root of the evaluation tree of a formula with the value `value`, and in a drawing all that
is in front of it. -/
def rootText (drawn : Bool) (f : Formula) (value : Bool) : String :=
  if drawn then
    "digraph \x7b\nnode [shape=box, style=filled];\n" ++
      "0 [shape=" ++ (if f.isAtom then "ellipse" else "box") ++
      ", fillcolor=" ++ (if value then "palegreen" else "lightpink") ++
      ", label=\"" ++ String.ofList (Dot.escapePasses f.chars) ++
      (if value then " [T]" else " [F]") ++ "\"];\n"
  else f.text ++ (if value then " [T]" else " [F]") ++ "\n"

/-- The evaluation tree of a formula, told from its places. -/
def evaluationText (drawn : Bool) (env : SymbolTable) (f : Formula) : String :=
  if drawn then
    "digraph \x7b\nnode [shape=box, style=filled];\n" ++
      f.placesText (fun k place g =>
        Formula.valuedNodeText {} env k g ++ edgeText (f.parentNumber? place) k) ++ "\x7d\n"
  else f.placesText fun _ place g => Formula.valuedText env place.length g

/-- A node of a tableau as a line of text at a level. -/
def branchingLine (level : Nat) (n : Node) : String :=
  String.ofList (List.replicate (2 * level) ' ') ++ n.text ++
    (match n.content with
      | .leaf _ true => " ✗"
      | .leaf _ false => ""
      | .branch true _ => " (or)"
      | .branch false _ => " (and)") ++ "\n"

/-- A tableau, told from its nodes. -/
def branchingText (drawn : Bool) (t : Tableau) : String :=
  "Tableau:\n" ++
    (if drawn then String.ofList (t.drawingChars {})
      else String.join (t.outline.map fun entry =>
        (t.node? entry.item).elim "" (branchingLine (entry.level + 1)))) ++
    ("Open leaves: " ++ toString t.openLeaves.length ++ "\n")

theorem unlines_singleton (line : String) : unlines [line] = line ++ "\n" := by
  rw [unlines, List.map_singleton, String.join_cons, String.join_nil, String.append_empty]

theorem unlines_append (xs ys : List String) : unlines (xs ++ ys) = unlines xs ++ unlines ys := by
  rw [unlines, List.map_append, String.join_append]
  rfl

theorem unlines_factLines (typed : String) (f : Formula) :
    unlines (factLines typed f.summary) = factsText typed f := by
  have hfacts : ∀ first connective last, unlines ([first] ++ connective ++ [last])
      = first ++ "\n" ++ unlines connective ++ (last ++ "\n") := by
    intro first connective last
    rw [unlines_append, unlines_append, unlines_singleton, unlines_singleton]
  rw [factLines, hfacts, factsText]
  refine congrArg₂ (· ++ ·) (congrArg₂ (· ++ ·) rfl ?_) rfl
  rcases f with _ | _ | _ | ⟨_ | _ | _ | _, _, _⟩
  case bin.and | bin.or | bin.cond | bin.iff => exact unlines_singleton _
  all_goals rfl

theorem unlines_variableLines (entries : List (String × Bool)) :
    unlines (variableLines entries)
      = "Variables:\n" ++ String.join (entries.map fun (name, value) =>
        "  " ++ name ++ " = " ++ (if value then "T" else "F") ++ "\n") := by
  have hvalue : ∀ value, valueText value = if value then "T" else "F" := by decide
  rw [unlines, variableLines, List.map_cons, String.join_cons, List.map_map]
  simp only [Function.comp_def, hvalue]
  rfl

/-- The text of an evaluation tree. -/
theorem treeText_eq_evaluationText {env : SymbolTable} {f : Formula} {tree : EvalTree}
    (h : f.evaluateTree env = .ok tree) (drawn : Bool) :
    treeText drawn tree = evaluationText drawn env f := by
  cases drawn with
  | false => exact Formula.treeText_evaluateTree h
  | true => exact Formula.render_drawing_evaluateTree h {}

/-- It begins with the root. -/
theorem exists_evaluationText_eq {env : SymbolTable} {f : Formula} {value : Bool}
    (h : f.evaluate env = .ok value) (drawn : Bool) :
    ∃ below, evaluationText drawn env f = rootText drawn f value ++ below := by
  have hmark : ∀ yes no : String,
      (if f.evaluate env = .ok true then yes else no) = if value then yes else no := by
    intro yes no
    rw [h]
    cases value <;> rfl
  cases drawn with
  | false =>
    obtain ⟨below, hbelow⟩ := f.exists_placesText_eq fun _ place g =>
      Formula.valuedText env place.length g
    refine ⟨below, hbelow.trans (congrArg (· ++ below) ?_)⟩
    rw [Formula.valuedText, hmark]
    rfl
  | true =>
    obtain ⟨below, hbelow⟩ := f.exists_placesText_eq fun k place g =>
      Formula.valuedNodeText {} env k g ++ edgeText (f.parentNumber? place) k
    refine ⟨below ++ "\x7d\n", ?_⟩
    apply String.toList_injective
    rw [evaluationText, if_pos rfl, hbelow, Formula.valuedNodeText, hmark, hmark]
    simp [rootText, edgeText, Formula.parentNumber?]

/-- What is left out by a filter has no part in a text. -/
theorem join_map_filterMap {α β : Type} (xs : List α) (f : α → Option β) (part : β → String) :
    String.join ((xs.filterMap f).map part) = String.join (xs.map fun x => (f x).elim "" part) := by
  induction xs with
  | nil => rfl
  | cons x xs ih => cases h : f x <;> simp [h, ih]

/-- The text of the tableau of a formula with bare names. -/
theorem tableauText_eq {f : Formula} {t : Tableau} (h : f.tableau = .ok t) (hnames : f.NamesBare)
    (drawn : Bool) : tableauText drawn t = branchingText drawn t := by
  have hline : ∀ level n, indent level (n.text ++ nodeMark n) ++ "\n" = branchingLine level n := by
    intro level n
    apply String.toList_injective
    rcases n with ⟨text, parent?, ⟨_, _ | _⟩ | ⟨_ | _, _⟩⟩ <;>
      simp [indent, branchingLine, nodeMark]
  have hlines : unlines (tableauLines t) = String.join (t.outline.map fun entry =>
      (t.node? entry.item).elim "" (branchingLine (entry.level + 1))) := by
    rw [unlines, tableauLines, join_map_filterMap]
    refine congrArg String.join (List.map_congr_left fun entry _ => ?_)
    cases t.node? entry.item with
    | none => rfl
    | some n => exact hline (entry.level + 1) n
  rw [tableauText, branchingText, unlines_singleton, unlines_singleton, hlines, Dot.render,
    Tableau.renderChars_drawing h hnames]
  rfl

/-! ### Printing a report -/

/-- **The report on a text that can be read** has all its parts. -/
theorem print_eq_ok {typed : String} {f : Formula} {values : List (String × Bool)}
    (htyped : typed ≠ "") (hparse : parse defaultLimit typed.toList = .ok f)
    (hvalid : ∀ entry ∈ values, isValidName entry.1 = true) (withTableau drawn : Bool) :
    ∃ tree t, f.evaluateTree ⟨listing f values⟩ = .ok tree ∧
      f.evaluate ⟨listing f values⟩ = .ok tree.value ∧ f.toNnf.tableau = .ok t ∧
      print typed values withTableau drawn
        = .ok (unlines (factLines typed f.summary) ++ unlines (variableLines (listing f values))
            ++ treeText drawn tree ++ if withTableau then tableauText drawn t else "") := by
  have hnames : ∀ name ∈ f.variableNames, name ∈ (SymbolTable.mk (listing f values)).names := by
    intro name hname
    rw [names_listing]
    exact List.mem_append_left _ hname
  obtain ⟨tree, htree, hvalue⟩ := Formula.exists_evaluateTree_eq_ok hnames
  obtain ⟨t, ht⟩ := Formula.exists_tableau_eq_ok (Formula.isNnf_toNnf f)
  refine ⟨tree, t, htree, hvalue, ht, ?_⟩
  rw [print, session_eq_ok htyped hparse hvalid]
  cases withTableau with
  | false =>
    simp [parts, headPart, answerPart, printParts, Session.summary, Session.evaluateTree, htree,
      Except.map]
  | true =>
    simp [parts, headPart, answerPart, printParts, Session.summary, Session.evaluateTree,
      Session.tableau, htree, ht, Except.map, String.append_assoc]

/-- A text that cannot be read breaks the report off before anything is printed. -/
theorem print_of_parse_eq_error {typed : String} {e : ParseError} (htyped : typed ≠ "")
    (hparse : parse defaultLimit typed.toList = .error e) (values : List (String × Bool))
    (withTableau drawn : Bool) :
    print typed values withTableau drawn = .error ⟨"", .fault (.parse e)⟩ := by
  rw [print, session, Session.update_of_parse_eq_error (s := .new defaultLimit) htyped hparse]

/-- So does the empty text, for want of a formula. -/
theorem print_empty {values : List (String × Bool)}
    (hvalid : ∀ entry ∈ values, isValidName entry.1 = true) (withTableau drawn : Bool) :
    print "" values withTableau drawn = .error ⟨"", .noFormula⟩ := by
  have hupdate : (Session.new defaultLimit).update "" = (.new defaultLimit, .ok ()) := rfl
  simp only [print, session, hupdate, assignAll_eq_ok hvalid]
  rfl

/-- **The order of the values does not show in a report** if the names differ and occur in the
formula. -/
theorem print_of_perm {typed : String} {f : Formula} {values values' : List (String × Bool)}
    (htyped : typed ≠ "") (hparse : parse defaultLimit typed.toList = .ok f)
    (hvalid : ∀ entry ∈ values, isValidName entry.1 = true) (hperm : values.Perm values')
    (hnodup : (values.map Prod.fst).Nodup)
    (hvariables : ∀ entry ∈ values, entry.1 ∈ f.variableNames) (withTableau drawn : Bool) :
    print typed values' withTableau drawn = print typed values withTableau drawn := by
  have hvalid' : ∀ entry ∈ values', isValidName entry.1 = true :=
    fun entry hentry => hvalid entry (hperm.mem_iff.mpr hentry)
  obtain ⟨tree, t, htree, -, ht, hprint⟩ := print_eq_ok htyped hparse hvalid withTableau drawn
  obtain ⟨tree', t', htree', -, ht', hprint'⟩ := print_eq_ok htyped hparse hvalid' withTableau drawn
  rw [listing_of_perm hperm hnodup hvariables] at htree' hprint'
  obtain rfl := Except.ok.inj (htree.symm.trans htree')
  obtain rfl := Except.ok.inj (ht.symm.trans ht')
  rw [hprint, hprint']

end Report

/-! ### Runs -/

namespace CommandLine

/-- **A run prints the whole report or nothing.**  Let `typed` be the formula that is given, let
each value that is given be accepted, and let the run not be logged.  Then it succeeds if something
is typed and it can be read.  Otherwise the exit code is one, nothing is printed, and the complaint
is that of the reader or, if nothing is typed, that there is no formula.

What is printed for a formula is the facts, its variables and behind them the other names that
are given values, each with the value that it is given last and else the value false, the
evaluation tree, at whose root stands the value of the formula under just this assignment, and
the tableau of the normal form if it is asked for.  It makes no difference in which order the
values are given if the names differ and all occur in the formula. -/
theorem report_or_complaint {o : Options} {typed : String} (hformula : o.formula? = some typed)
    (haccepted : ∀ entry ∈ o.assignments, ∃ text, assignment? text = some entry)
    (hquiet : o.isLogged = false) :
    ((runOptions o).exitCode = 0 ↔
      typed ≠ "" ∧ ∃ f, parse defaultLimit typed.toList = .ok f) ∧
    (typed = "" → (runOptions o).exitCode = 1 ∧ stdout? o = some "" ∧
      (runOptions o).complaint? = some "no formula") ∧
    (∀ e, typed ≠ "" → parse defaultLimit typed.toList = .error e →
      (runOptions o).exitCode = 1 ∧ stdout? o = some "" ∧
        (runOptions o).complaint? = some e.message) ∧
    ∀ f, typed ≠ "" → parse defaultLimit typed.toList = .ok f →
      (∃ tree t below,
        f.evaluateTree ⟨Report.listing f o.assignments⟩ = .ok tree ∧
        f.evaluate ⟨Report.listing f o.assignments⟩ = .ok tree.value ∧
        f.toNnf.tableau = .ok t ∧
        stdout? o = some (Report.factsText typed f ++
          ("Variables:\n" ++ String.join ((Report.listing f o.assignments).map fun (name, value) =>
            "  " ++ name ++ " = " ++ (if value then "T" else "F") ++ "\n")) ++
          (Report.rootText o.dot f tree.value ++ below) ++
          (if o.tableau then Report.branchingText o.dot t else "")) ∧
        Report.rootText o.dot f tree.value ++ below
          = Report.evaluationText o.dot ⟨Report.listing f o.assignments⟩ f) ∧
      ∀ values, o.assignments.Perm values → (o.assignments.map Prod.fst).Nodup →
        (∀ entry ∈ o.assignments, entry.1 ∈ f.variableNames) →
        runOptions { o with assignments := values } = runOptions o ∧
        stdout? { o with assignments := values } = stdout? o := by
  have hvalid : ∀ entry ∈ o.assignments, isValidName entry.1 = true := by
    intro entry hentry
    obtain ⟨text, htext⟩ := haccepted entry hentry
    exact isValidName_of_assignment? htext
  have hstdout : stdout? o = some (runOptions o).output := by
    rw [stdout?, if_neg (by simp [hquiet])]
  have hrun : ∀ values, runOptions { o with assignments := values }
      = .ofReport (Report.print typed values o.tableau o.dot) := by
    intro values
    simp only [runOptions, hformula]
  have hself : runOptions o = _ := hrun o.assignments
  have hempty : typed = "" → runOptions o = .failed ⟨"", .noFormula⟩ := by
    rintro rfl
    rw [hself, Report.print_empty hvalid]
    rfl
  have herror : ∀ e, typed ≠ "" → parse defaultLimit typed.toList = .error e →
      runOptions o = .failed ⟨"", .fault (.parse e)⟩ := by
    intro e htyped hparse
    rw [hself, Report.print_of_parse_eq_error htyped hparse]
    rfl
  rw [hstdout]
  refine ⟨⟨fun hzero => ?_, ?_⟩, fun h => ?_, fun e htyped hparse => ?_, fun f htyped hparse => ?_⟩
  · by_cases htyped : typed = ""
    · rw [hempty htyped] at hzero
      cases hzero
    · cases hparse : parse defaultLimit typed.toList with
      | error e =>
        rw [herror e htyped hparse] at hzero
        cases hzero
      | ok f => exact ⟨htyped, f, rfl⟩
  · rintro ⟨htyped, f, hparse⟩
    obtain ⟨_, _, -, -, -, hprint⟩ := Report.print_eq_ok htyped hparse hvalid o.tableau o.dot
    rw [hself, hprint]
    rfl
  · rw [hempty h]
    exact ⟨rfl, rfl, rfl⟩
  · rw [herror e htyped hparse]
    exact ⟨rfl, rfl, rfl⟩
  · refine ⟨?_, fun values hperm hnodup hvariables => ?_⟩
    · obtain ⟨tree, t, htree, hvalue, ht, hprint⟩ :=
        Report.print_eq_ok htyped hparse hvalid o.tableau o.dot
      obtain ⟨below, hbelow⟩ := Report.exists_evaluationText_eq hvalue o.dot
      have hnames := (Formula.hasCleanNames_toNnf (hasCleanNames_of_parse hparse)).namesBare
      refine ⟨tree, t, below, htree, hvalue, ht, ?_, hbelow.symm⟩
      rw [hself, hprint, Report.unlines_factLines, Report.unlines_variableLines,
        Report.treeText_eq_evaluationText htree, hbelow, Report.tableauText_eq ht hnames]
      rfl
    · have hsame : runOptions { o with assignments := values } = runOptions o := by
        rw [hrun, hself,
          Report.print_of_perm htyped hparse hvalid hperm hnodup hvariables o.tableau o.dot]
      refine ⟨hsame, ?_⟩
      rw [← hstdout, stdout?, stdout?, hsame]
      rfl

/-- With `q=T`, `z=1` and `q=false`, the report on `p > q` lists `p` and `q` as false and then
`z` as true, and the formula is true.  For `p >` nothing is printed but the complaint.  With
`p=T` and `q=F` it makes no difference which comes first. -/
theorem report_or_complaint_reassigned :
    (∃ o : Options,
      o = ⟨some "p > q", [("q", true), ("z", true), ("q", false)], false, false, none⟩ ∧
      (runOptions o).exitCode = 0 ∧
      stdout? o = some ("Formula: p→q\nMain connective: →\nNodes: 3  Binary operators: 1\n" ++
        "Variables:\n  p = F\n  q = F\n  z = T\n(p→q) [T]\n  p [F]\n  q [F]\n")) ∧
    (∃ o : Options, o = ⟨some "p >", [("p", true)], true, true, some .info⟩ ∧
      (runOptions o).exitCode = 1 ∧ stdout? o = some "" ∧
      (runOptions o).complaint? = some "formula must contain one or more characters") ∧
    runOptions ⟨some "p > q", [("q", false), ("p", true)], true, false, none⟩
      = runOptions ⟨some "p > q", [("p", true), ("q", false)], true, false, none⟩ := by
  have hparse : parse defaultLimit "p > q".toList = .ok (.cond (.var "p") (.var "q")) := rfl
  have hp : ∃ text, assignment? text = some ("p", true) := ⟨"p=T", by decide⟩
  have hq : ∃ text, assignment? text = some ("q", false) := ⟨"q=false", by decide⟩
  have hq' : ∃ text, assignment? text = some ("q", true) := ⟨"q=T", by decide⟩
  have hz : ∃ text, assignment? text = some ("z", true) := ⟨"z=1", by decide⟩
  obtain ⟨hzero, -, -, hread⟩ := report_or_complaint
    (o := ⟨some "p > q", [("q", true), ("z", true), ("q", false)], false, false, none⟩)
    rfl (by simpa using ⟨hq', hz, hq⟩) rfl
  obtain ⟨-, -, hfail, -⟩ := report_or_complaint
    (o := ⟨some "p >", [("p", true)], true, true, some .info⟩) rfl (by simpa using hp) rfl
  obtain ⟨-, -, -, hread'⟩ := report_or_complaint
    (o := ⟨some "p > q", [("p", true), ("q", false)], true, false, none⟩)
    rfl (by simpa using ⟨hp, hq⟩) rfl
  obtain ⟨⟨tree, t, below, -, -, -, hprint, hbelow⟩, -⟩ := hread _ (by decide) hparse
  rw [hbelow] at hprint
  exact ⟨⟨_, rfl, hzero.mpr ⟨by decide, _, hparse⟩, hprint⟩,
    ⟨_, rfl, hfail .emptyInput (by decide) rfl⟩,
    ((hread' _ (by decide) hparse).2 _ (.swap _ _ _) (by decide) (by decide)).1⟩

end CommandLine

end Sentential
