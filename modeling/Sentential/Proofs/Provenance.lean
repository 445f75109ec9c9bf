import Sentential.Proofs.Histories
import Sentential.Proofs.Settled
import Sentential.Proofs.TableHistory

/-!
# Where the state of a session comes from

What a session holds can be told from the calls since the text was last deleted.  The formula
is the last one that was read.  The symbol table is what is left of an empty one when the
variables of each formula that was read are added and each assignment to a valid name is made,
in the order of the calls.  So a variable has the value that was assigned to it last, and is
false if it has only been read; that it is read again does not change its value.

## Main definitions

* `SessionCall.formula?`, `SessionCall.edit?` — what a call does to the formula and to the
  table.
* `SessionCall.value?`, `SessionCall.mentions` — what it says about one variable.
* `sinceReset` — the calls since the text was last deleted.

## Main results

* `SessionCall.edit?_cases` — all that a call can do besides deleting the text.
* `Session.fst_call` — the state after one call.
* `Session.serve_new` — the state after any calls.
* `SymbolTable.lookup?_run_edits` — the value of a variable after any calls.
* `Session.state_determined_by_calls` — **a session is determined by the calls since the text
  was last deleted.**
-/

namespace Sentential

/-- A blank text is rejected because nothing is in it. -/
theorem parse_of_forall_isBlank (limit : Nat) {text : List Char}
    (h : ∀ c ∈ text, isBlank c = true) : parse limit text = .error .emptyInput :=
  parseAt_of_error (by rw [normalize_of_forall_isBlank h]; rfl) limit limit

/-! ### What a call does -/

namespace SessionCall

/-- The text in the editor is deleted. -/
def reset : SessionCall := .change (.update "")

/-- The formula that is read in a call, if one is. -/
def formula? (limit : Nat) : SessionCall → Option Formula
  | .change (.update text) => (parse limit text.toList).toOption
  | .change (.setVariable ..) => none
  | .ask _ => none

/-- What a call does to the symbol table, unless the text is deleted.  The variables of a
formula that is read are added, and an assignment is made if the name is valid. -/
def edit? (limit : Nat) : SessionCall → Option TableEdit
  | .change (.update text) => (parse limit text.toList).toOption.map .register
  | .change (.setVariable name value) => if isValidName name then some (.set name value) else none
  | .ask _ => none

/-- The value that is assigned to `name` in a call, if one is. -/
def value? (name : String) : SessionCall → Option Bool
  | .change (.setVariable x value) => if name = x ∧ isValidName x = true then some value else none
  | .change (.update _) => none
  | .ask _ => none

/-- Whether a formula with the variable `name` is read in a call. -/
def mentions (limit : Nat) (name : String) (c : SessionCall) : Bool :=
  (c.formula? limit).any fun f => f.variableNames.contains name

/-- **All that a call can do** besides deleting the text: a formula with valid names is read, a
valid name is given a value, or nothing happens. -/
theorem edit?_cases (limit : Nat) (c : SessionCall) :
    (∃ f, c.edit? limit = some (.register f) ∧ c.formula? limit = some f ∧
      (∀ x ∈ f.variableNames, isValidName x = true) ∧ ∀ name, c.value? name = none) ∨
    (∃ x value, c.edit? limit = some (.set x value) ∧ c.formula? limit = none ∧
      isValidName x = true ∧ ∀ name, c.value? name = if name = x then some value else none) ∨
    (c.edit? limit = none ∧ c.formula? limit = none ∧ ∀ name, c.value? name = none) := by
  rcases c with (text | ⟨x, value⟩) | query
  · rw [edit?, formula?]
    cases hparse : parse limit text.toList with
    | error e => exact .inr (.inr ⟨rfl, rfl, fun _ => rfl⟩)
    | ok f => exact .inl ⟨f, rfl, rfl, isValidName_of_parse hparse, fun _ => rfl⟩
  · cases hvalid : isValidName x with
    | false => exact .inr (.inr ⟨by simp [edit?, hvalid], rfl, by simp [value?, hvalid]⟩)
    | true => exact .inr (.inl ⟨x, value, by simp [edit?, hvalid], rfl, hvalid,
        by simp [value?, hvalid]⟩)
  · exact .inr (.inr ⟨rfl, rfl, fun _ => rfl⟩)

end SessionCall

/-- The calls behind the last one by which the text was deleted, all of them if it never was. -/
def sinceReset (calls : List SessionCall) : List SessionCall :=
  calls.rtakeWhile fun c => c ≠ .reset

theorem sinceReset_append_singleton (calls : List SessionCall) (c : SessionCall) :
    sinceReset (calls ++ [c]) = if c = .reset then [] else sinceReset calls ++ [c] := by
  rw [sinceReset, List.rtakeWhile_concat]
  by_cases hc : c = .reset <;> simp [hc, sinceReset]

/-- What came before the text was deleted is forgotten. -/
theorem sinceReset_append_reset_cons (before : List SessionCall) {after : List SessionCall}
    (h : .reset ∉ after) : sinceReset (before ++ .reset :: after) = after := by
  induction after using List.reverseRecOn with
  | nil => rw [sinceReset_append_singleton, if_pos rfl]
  | append_singleton after c ih =>
    rw [List.mem_append, List.mem_singleton, not_or] at h
    rw [← List.cons_append, ← List.append_assoc, sinceReset_append_singleton,
      if_neg (Ne.symm h.2), ih h.1]

/-! ### Values of variables -/

private theorem filterMap_append_singleton {α β : Type} (f : α → Option β) (l : List α) (a : α) :
    (l ++ [a]).filterMap f = l.filterMap f ++ (f a).toList := by
  rw [List.filterMap_append]
  cases h : f a <;> simp [h]

namespace SymbolTable

theorem run_set {name : String} (h : isValidName name = true) (t : SymbolTable) (value : Bool) :
    t.run [.set name value] = ⟨assign name value t.entries⟩ := by
  simp [run, edit, set, h, orKeep]

/-- No call makes a table refuse a name. -/
theorem edit_eq_ok {limit : Nat} {c : SessionCall} {edit : TableEdit}
    (h : c.edit? limit = some edit) (t : SymbolTable) : (t.edit edit).2 = .ok () := by
  rcases c.edit?_cases limit with ⟨f, hedit, -, hvalid, -⟩ | ⟨x, value, hedit, -, hvalid, -⟩ |
    ⟨hedit, -⟩
  · obtain rfl := Option.some.inj (hedit.symm.trans h)
    obtain ⟨t', hregister, -⟩ := exists_register_eq_ok hvalid t
    exact congrArg Prod.snd hregister
  · obtain rfl := Option.some.inj (hedit.symm.trans h)
    simp [SymbolTable.edit, set, hvalid, orKeep]
  · cases hedit.symm.trans h

/-- The value of a name after one call: that assigned to it, else that it had, else false if
it is read. -/
theorem lookup?_run_edit? (limit : Nat) (c : SessionCall) (t : SymbolTable) (name : String) :
    (t.run (c.edit? limit).toList).lookup? name
      = ((c.value? name).or (t.lookup? name)).or
          (if c.mentions limit name then some false else none) := by
  unfold SessionCall.mentions
  rcases c.edit?_cases limit with ⟨f, hedit, hformula, hvalid, hvalue⟩ |
    ⟨x, value, hedit, hformula, hvalid, hvalue⟩ | ⟨hedit, hformula, hvalue⟩
  · obtain ⟨t', hregister, -⟩ := exists_register_eq_ok hvalid t
    have hrun : t.run [.register f] = t' := congrArg Prod.fst hregister
    rw [hedit, hformula, hvalue, Option.toList_some, hrun, lookup?_register hregister]
    simp
  · rw [hedit, hformula, hvalue, Option.toList_some, run_set hvalid,
      lookup?_set (if_pos hvalid) name]
    by_cases hname : name = x <;> simp [hname]
  · rw [hedit, hformula, hvalue]
    exact Option.or_none.symm

/-- **The value of a name after any calls**: that assigned to it last, else false if it has
been read. -/
theorem lookup?_run_edits (limit : Nat) (calls : List SessionCall) (name : String) :
    (empty.run (calls.filterMap (SessionCall.edit? limit))).lookup? name
      = (calls.reverse.findSome? (SessionCall.value? name)).or
          (if calls.any (SessionCall.mentions limit name) then some false else none) := by
  induction calls using List.reverseRecOn with
  | nil => rfl
  | append_singleton calls c ih =>
    rw [filterMap_append_singleton, run_append, lookup?_run_edit?, ih,
      findSome?_reverse_append_singleton, ← Option.or_assoc, Option.or_assoc, List.any_append]
    congr 1
    cases calls.any (SessionCall.mentions limit name) <;> simp

end SymbolTable

/-! ### States -/

namespace Session

/-- **The state after one call**, if that does not delete the text. -/
theorem fst_call (s : Session) {c : SessionCall} (hc : c ≠ .reset) :
    (s.call c).1 = ⟨s.limit, s.symbols.run (c.edit? s.limit).toList,
      (c.formula? s.limit).or s.formula?⟩ := by
  rcases c with (text | ⟨name, value⟩) | query
  · have htext : text ≠ "" := by
      rintro rfl
      exact hc rfl
    show (s.update text).1 = _
    rw [SessionCall.edit?, SessionCall.formula?]
    cases hparse : parse s.limit text.toList with
    | error e =>
      rw [update_of_parse_eq_error htext hparse]
      rfl
    | ok f =>
      obtain ⟨symbols, hregister, -, hupdate⟩ := update_of_parse_eq_ok htext hparse
      rw [hupdate]
      show _ = Session.mk s.limit (s.symbols.register f).1 (some f)
      rw [hregister]
  · show (s.setVariable name value).1 = _
    rw [SessionCall.edit?, setVariable, SymbolTable.set]
    cases hvalid : isValidName name with
    | false => rfl
    | true =>
      show _ = Session.mk s.limit (s.symbols.run [.set name value]) s.formula?
      rw [SymbolTable.run_set hvalid]
      rfl
  · rfl

/-- **The state after any calls**, which those since the text was last deleted lead to. -/
theorem serve_new (limit : Nat) (calls : List SessionCall) :
    (new limit).serve calls
      = ⟨limit, SymbolTable.empty.run ((sinceReset calls).filterMap (SessionCall.edit? limit)),
          (sinceReset calls).reverse.findSome? (SessionCall.formula? limit)⟩ := by
  induction calls using List.reverseRecOn with
  | nil => rfl
  | append_singleton calls c ih =>
    rw [serve, List.foldl_append, List.foldl_cons, List.foldl_nil, ← serve, ih,
      sinceReset_append_singleton]
    split
    · rename_i hc
      rw [hc]
      rfl
    · rename_i hc
      rw [fst_call _ hc, filterMap_append_singleton, SymbolTable.run_append,
        findSome?_reverse_append_singleton]

/-- **A session is determined by the calls since the text was last deleted.**  Its formula is
the last one that was read among them, and its table is an empty one in which the variables
of each formula that was read were added, and each assignment to a valid name was made, in the
order of the calls; none of this is ever refused.  So a name has the value that was last
assigned to it, and else the value false, if it was read at all.  And whatever the state is, it
does not change when a text cannot be read, as a blank one never can, when a name is refused
or when something is asked. -/
theorem state_determined_by_calls (limit : Nat) (calls : List SessionCall) :
    (new limit).serve calls
      = ⟨limit, SymbolTable.empty.run ((sinceReset calls).filterMap (SessionCall.edit? limit)),
          (sinceReset calls).reverse.findSome? (SessionCall.formula? limit)⟩ ∧
    (∀ edit ∈ (sinceReset calls).filterMap (SessionCall.edit? limit), ∀ t : SymbolTable,
      (t.edit edit).2 = .ok ()) ∧
    (∀ name, ((new limit).serve calls).symbols.lookup? name
      = ((sinceReset calls).reverse.findSome? (SessionCall.value? name)).or
          (if (sinceReset calls).any (SessionCall.mentions limit name) then some false
            else none)) ∧
    ∀ s : Session,
      (∀ text e, text ≠ "" → parse s.limit text.toList = .error e →
        s.update text = (s, .error (.parse e))) ∧
      (∀ text : String, text ≠ "" → (∀ c ∈ text.toList, isBlank c = true) →
        s.update text = (s, .error (.parse .emptyInput))) ∧
      (∀ name value, isValidName name = false →
        s.setVariable name value = (s, .error (.name ⟨name⟩))) ∧
      ∀ query, (s.call (.ask query)).1 = s := by
  refine ⟨serve_new limit calls, fun edit hedit t => ?_, fun name => ?_, fun s =>
    ⟨fun text e => update_of_parse_eq_error, fun text htext hblank => ?_,
      fun name value hname => ?_, fun query => rfl⟩⟩
  · obtain ⟨c, -, hc⟩ := List.mem_filterMap.mp hedit
    exact SymbolTable.edit_eq_ok hc t
  · rw [serve_new]
    exact SymbolTable.lookup?_run_edits limit (sinceReset calls) name
  · exact update_of_parse_eq_error htext (parse_of_forall_isBlank s.limit hblank)
  · simp [setVariable, SymbolTable.set, hname]

/-- After the text is deleted, `q ^ p` is typed, `p` becomes true, a value for `T` is refused,
`p >` is typed, which cannot be read, a value is asked for and `p <> q` is typed.  Then `p` is
true, `q` is false and `r` has no value any more. -/
theorem state_determined_by_calls_retyped :
    ∃ s : Session, (new 3).serve [.change (.update "r"), .change (.setVariable "r" true),
        .change (.update ""), .change (.update "q ^ p"), .change (.setVariable "p" true),
        .change (.setVariable "T" true), .change (.update "p >"), .ask .evaluate,
        .change (.update "p <> q")] = s ∧
      s.formula? = some (.iff (.var "p") (.var "q")) ∧ s.symbols.lookup? "p" = some true ∧
      s.symbols.lookup? "q" = some false ∧ s.symbols.lookup? "r" = none ∧
      s.update " " = (s, .error (.parse .emptyInput)) ∧
      s.update "p >" = (s, .error (.parse .emptyInput)) ∧
      s.setVariable "T" true = (s, .error (.name ⟨"T"⟩)) ∧ (s.call (.ask .evaluate)).1 = s := by
  obtain ⟨hstate, -, hvalues, hidle⟩ := state_determined_by_calls 3
    ([.change (.update "r"), .change (.setVariable "r" true)] ++ .reset ::
      [.change (.update "q ^ p"), .change (.setVariable "p" true),
        .change (.setVariable "T" true), .change (.update "p >"), .ask .evaluate,
        .change (.update "p <> q")])
  rw [sinceReset_append_reset_cons _ (by decide)] at hstate hvalues
  obtain ⟨hfail, hblank, hrefuse, hask⟩ := hidle ((new 3).serve _)
  refine ⟨_, rfl, ?_, ?_, ?_, ?_, hblank " " (by decide) (List.forall_mem_singleton.mpr rfl),
    hfail "p >" _ (by decide) ?_, hrefuse "T" true (by decide), hask .evaluate⟩
  · exact (congrArg Session.formula? hstate).trans rfl
  · exact (hvalues "p").trans rfl
  · exact (hvalues "q").trans rfl
  · exact (hvalues "r").trans rfl
  · rfl

end Session

end Sentential
