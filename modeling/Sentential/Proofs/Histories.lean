import Sentential.Editor.Session
import Sentential.Proofs.Answers
import Sentential.Proofs.Normalizing
import Sentential.Proofs.RoundTrip

/-!
# Histories of a session

Whatever is typed and assigned, in whichever order and however much of it is refused, a
session stays in a state in which each of its queries has an answer: what is read has only
names that can be stored, and they are stored when it is read.

## Main definitions

* `Session.Ready` — the table has valid names only, and those of the current formula.
* `Session.Reachable` — a session can get into a state.

## Main results

* `Session.update_cases`, `Session.setVariable_cases` — all that a change can do.
* `Session.run_induction` — what every change keeps.
* `Session.Ready.step`, `Session.Ready.run` — sessions stay ready.
* `Session.reachable_answers` — **every query has an answer in every state that a session can
  get into.**
-/

namespace Sentential

/-- **The variables of a formula that is read can be stored.** -/
theorem isValidName_of_parse {limit : Nat} {text : List Char} {f : Formula}
    (h : parse limit text = .ok f) : ∀ name ∈ f.variableNames, isValidName name = true := by
  intro name hname
  have hclean := hasCleanNames_of_parse h name hname
  rw [isCleanName, Bool.and_eq_true] at hclean
  exact hclean.1

namespace Session

/-! ### One change -/

/-- A text that cannot be read changes nothing. -/
theorem update_of_parse_eq_error {s : Session} {text : String} {e : ParseError}
    (htext : text ≠ "") (h : parse s.limit text.toList = .error e) :
    s.update text = (s, .error (.parse e)) := by
  simp [update, htext, h]

/-- A text that can be read becomes the formula, and the variables of that are added to the
table. -/
theorem update_of_parse_eq_ok {s : Session} {text : String} {f : Formula} (htext : text ≠ "")
    (h : parse s.limit text.toList = .ok f) :
    ∃ symbols, s.symbols.register f = (symbols, .ok ()) ∧
      symbols.names = f.collect s.symbols.names ∧
      s.update text = (⟨s.limit, symbols, some f⟩, .ok ()) := by
  obtain ⟨symbols, hregister, hnames⟩ :=
    SymbolTable.exists_register_eq_ok (isValidName_of_parse h) s.symbols
  exact ⟨symbols, hregister, hnames, by simp [update, htext, h, hregister]⟩

/-- **All that a new text can do.**  It starts afresh if it is empty, and it changes nothing
if it cannot be read.  Otherwise it becomes the formula, and the table has the names of its
variables behind those that were there; no name is refused. -/
theorem update_cases (s : Session) (text : String) :
    (text = "" ∧ s.update text = (new s.limit, .ok ())) ∨
    (∃ e, parse s.limit text.toList = .error e ∧ s.update text = (s, .error (.parse e))) ∨
    ∃ f symbols, parse s.limit text.toList = .ok f ∧
      symbols.names = f.collect s.symbols.names ∧
      s.update text = (⟨s.limit, symbols, some f⟩, .ok ()) := by
  by_cases htext : text = ""
  · exact .inl ⟨htext, if_pos (beq_iff_eq.mpr htext)⟩
  cases hparse : parse s.limit text.toList with
  | error e => exact .inr (.inl ⟨e, rfl, update_of_parse_eq_error htext hparse⟩)
  | ok f =>
    obtain ⟨symbols, -, hnames, hupdate⟩ := update_of_parse_eq_ok htext hparse
    exact .inr (.inr ⟨f, symbols, rfl, hnames, hupdate⟩)

/-- **All that an assignment can do.**  It is refused and changes nothing if the name is not
valid.  Otherwise the table has the name, behind those that were there if it is new. -/
theorem setVariable_cases (s : Session) (name : String) (value : Bool) :
    (isValidName name = false ∧ s.setVariable name value = (s, .error (.name ⟨name⟩))) ∨
    (isValidName name = true ∧ ∃ symbols, symbols.names = insertName s.symbols.names name ∧
      s.setVariable name value = (⟨s.limit, symbols, s.formula?⟩, .ok ())) := by
  cases hname : isValidName name with
  | false => exact .inl ⟨rfl, by simp [setVariable, SymbolTable.set, hname]⟩
  | true =>
    obtain ⟨symbols, hset, hnames⟩ := SymbolTable.exists_set_eq_ok hname s.symbols value
    exact .inr ⟨rfl, symbols, hnames, by simp [setVariable, hset]⟩

/-- **What every change keeps is kept by every history.** -/
theorem run_induction {P : Session → Prop} (hstep : ∀ s event, P s → P (s.step event))
    {s : Session} (h : P s) (events : List SessionEvent) : P (s.run events) := by
  induction events generalizing s with
  | nil => exact h
  | cons event events ih => exact ih (hstep s event h)

/-! ### Sessions stay ready -/

/-- The names in the table are valid, and those of the current formula are among them. -/
structure Ready (s : Session) : Prop where
  /-- All names in the table are valid. -/
  isValidName_of_mem : ∀ name ∈ s.symbols.names, isValidName name = true
  /-- The variables of the formula are in the table. -/
  mem_names : ∀ f, s.formula? = some f → ∀ name ∈ f.variableNames, name ∈ s.symbols.names

namespace Ready

variable {s : Session}

theorem new (limit : Nat) : (Session.new limit).Ready where
  isValidName_of_mem := by
    intro name h
    simp [Session.new, SymbolTable.names, SymbolTable.empty] at h
  mem_names := by
    intro f h
    simp [Session.new] at h

theorem update (h : s.Ready) (text : String) : (s.update text).1.Ready := by
  rcases s.update_cases text with ⟨-, hu⟩ | ⟨e, -, hu⟩ | ⟨f, symbols, hparse, hnames, hu⟩
  · rw [hu]
    exact .new s.limit
  · rw [hu]
    exact h
  · rw [hu]
    -- a name in the table was there or is one of the formula's
    have hmem : ∀ name, name ∈ symbols.names ↔ name ∈ s.symbols.names ∨ name ∈ f.variableNames := by
      intro name
      rw [hnames, Formula.mem_collect, Formula.mem_variableNames]
    constructor
    · intro name hname
      rcases (hmem name).mp hname with hname | hname
      · exact h.isValidName_of_mem name hname
      · exact isValidName_of_parse hparse name hname
    · rintro g hg name hname
      obtain rfl : f = g := Option.some.inj hg
      exact (hmem name).mpr (.inr hname)

theorem setVariable (h : s.Ready) (name : String) (value : Bool) :
    (s.setVariable name value).1.Ready := by
  rcases s.setVariable_cases name value with ⟨-, hset⟩ | ⟨hvalid, symbols, hnames, hset⟩
  · rw [hset]
    exact h
  · rw [hset]
    constructor
    · intro x hx
      rw [hnames, mem_insertName] at hx
      rcases hx with hx | rfl
      · exact h.isValidName_of_mem x hx
      · exact hvalid
    · intro f hf x hx
      rw [hnames, mem_insertName]
      exact .inl (h.mem_names f hf x hx)

/-- **A change leaves a session ready**, also when it fails. -/
theorem step (h : s.Ready) (event : SessionEvent) : (s.step event).Ready := by
  cases event with
  | update text => exact h.update text
  | setVariable name value => exact h.setVariable name value

/-- **So does every history.** -/
theorem run (h : s.Ready) (events : List SessionEvent) : (s.run events).Ready :=
  run_induction (fun _ event hs => hs.step event) h events

/-! ### Answers -/

/-- A session that is ready has a value, a tree with this value and a tableau for its
formula. -/
theorem exists_answers (h : s.Ready) {f : Formula} (hf : s.formula? = some f) :
    ∃ value tree t, s.evaluate = .ok (some value) ∧ s.evaluateTree = .ok (some tree) ∧
      tree.value = value ∧ s.tableau = .ok (some t) := by
  obtain ⟨value, hvalue⟩ := Formula.exists_evaluate_eq_ok_iff.mpr (h.mem_names f hf)
  obtain ⟨t, ht⟩ := Formula.exists_tableau_eq_ok (Formula.isNnf_toNnf f)
  have htree := Formula.map_value_evaluateTree s.symbols f
  cases heval : f.evaluateTree s.symbols with
  | error e => rw [heval, hvalue] at htree; cases htree
  | ok tree =>
    rw [heval, hvalue] at htree
    refine ⟨value, tree, t, ?_, ?_, Except.ok.inj htree, ?_⟩
    · simp [Session.evaluate, hf, hvalue, Except.map]
    · simp [Session.evaluateTree, hf, heval, Except.map]
    · simp [Session.tableau, hf, ht, Except.map]

end Ready

/-- A session with this limit gets into the state `s` by some history. -/
def Reachable (limit : Nat) (s : Session) : Prop := ∃ events, (new limit).run events = s

theorem Reachable.ready {limit : Nat} {s : Session} (h : s.Reachable limit) : s.Ready := by
  obtain ⟨events, rfl⟩ := h
  exact (Ready.new limit).run events

/-- **Every query has an answer in every state that a session can get into.**  There, a text is
refused only if it cannot be read, never for one of its names, and an assignment that is
refused changes nothing.  All names in the table are valid.  If there is a formula, all its
variables are in the table, and it has a value, an evaluation tree with that value at its root
and a tableau; if there is none, the three queries say so. -/
theorem reachable_answers {limit : Nat} {s : Session} (h : s.Reachable limit) :
    (∀ text e, (s.update text).2 = .error e → ∃ cause, e = .parse cause) ∧
    (∀ name value, isValidName name = false →
      s.setVariable name value = (s, .error (.name ⟨name⟩))) ∧
    (∀ name ∈ s.symbols.names, isValidName name = true) ∧
    (∀ f, s.formula? = some f →
      (∀ name ∈ f.variableNames, s.symbols.contains name = true) ∧
      ∃ value tree t, s.evaluate = .ok (some value) ∧ s.evaluateTree = .ok (some tree) ∧
        tree.value = value ∧ s.tableau = .ok (some t)) ∧
    (s.formula? = none →
      s.evaluate = .ok none ∧ s.evaluateTree = .ok none ∧ s.tableau = .ok none) := by
  refine ⟨fun text e he => ?_, fun name value hname => ?_, h.ready.isValidName_of_mem,
    fun f hf => ⟨fun name hname => ?_, h.ready.exists_answers hf⟩, fun hnone => ?_⟩
  · rcases s.update_cases text with ⟨-, hu⟩ | ⟨cause, -, hu⟩ | ⟨f, symbols, -, -, hu⟩
    · rw [hu] at he
      cases he
    · rw [hu] at he
      exact ⟨cause, (Except.error.inj he).symm⟩
    · rw [hu] at he
      cases he
  · rcases s.setVariable_cases name value with ⟨-, hset⟩ | ⟨hvalid, -⟩
    · exact hset
    · rw [hname] at hvalid
      cases hvalid
  · exact SymbolTable.contains_iff_mem_names.mpr (h.ready.mem_names f hf name hname)
  · simp [Session.evaluate, Session.evaluateTree, Session.tableau, hnone]

/-- After `p <> q` is typed, a value for `T` is refused, `p` becomes true and `p >` is typed,
the table and the formula are those of `p↔q`, and the formula has a value, a tree and a
tableau.  After the empty text there is nothing to ask for. -/
theorem reachable_answers_refused_changes :
    ∃ s t : Session, s.Reachable 3 ∧ t.Reachable 3 ∧
      s.formula? = some (.iff (.var "p") (.var "q")) ∧ t.formula? = none ∧
      (∃ value tree u, s.evaluate = .ok (some value) ∧ s.evaluateTree = .ok (some tree) ∧
        tree.value = value ∧ s.tableau = .ok (some u)) ∧
      s.setVariable "T" true = (s, .error (.name ⟨"T"⟩)) ∧
      (∃ cause, (s.update "p >").2 = .error (.parse cause)) ∧
      t.evaluate = .ok none := by
  have hs : Reachable 3 ((new 3).run
      [.update "p <> q", .setVariable "T" true, .setVariable "p" true, .update "p >"]) := ⟨_, rfl⟩
  have ht : Reachable 3 ((new 3).run [.update "p", .update ""]) := ⟨_, rfl⟩
  have hformula : ((new 3).run [.update "p <> q", .setVariable "T" true, .setVariable "p" true,
      .update "p >"]).formula? = some (.iff (.var "p") (.var "q")) := rfl
  have hnone : ((new 3).run [.update "p", .update ""]).formula? = none := rfl
  obtain ⟨hread, hset, -, hsome, -⟩ := reachable_answers hs
  refine ⟨_, _, hs, ht, hformula, hnone, (hsome _ hformula).2, hset "T" true (by decide), ?_,
    ((reachable_answers ht).2.2.2.2 hnone).1⟩
  have hfails : ∃ e, (((new 3).run [.update "p <> q", .setVariable "T" true,
      .setVariable "p" true, .update "p >"]).update "p >").2 = .error e := ⟨_, rfl⟩
  obtain ⟨e, he⟩ := hfails
  obtain ⟨cause, rfl⟩ := hread "p >" e he
  exact ⟨cause, he⟩

end Session

end Sentential
