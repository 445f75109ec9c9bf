import Sentential.Proofs.Histories

/-!
# Typing what is shown

An editor shows its formula by the canonical text.  Typed again, this text changes nothing:
the formula was read within the limit of the session, so its canonical text is, and all its
variables were stored when it was read, so none of them is new.  It makes no difference what
has happened since then.

## Main definitions

* `Session.Retypable` — the formula of a session can be read from its canonical text.

## Main results

* `Session.Retypable.step`, `Session.Retypable.run` — sessions stay retypable.
* `Session.update_text_eq_self` — **to type the canonical text of the formula does nothing.**
-/

namespace Sentential.Session

/-- The formula of a session, if there is one, is read from its canonical text within the limit
of the session. -/
def Retypable (s : Session) : Prop :=
  ∀ f, s.formula? = some f → parse s.limit f.text.toList = .ok f

namespace Retypable

variable {s : Session}

theorem new (limit : Nat) : (Session.new limit).Retypable := by
  intro f hf
  cases hf

theorem update (h : s.Retypable) (text : String) : (s.update text).1.Retypable := by
  rcases s.update_cases text with ⟨-, hu⟩ | ⟨e, -, hu⟩ | ⟨f, symbols, hparse, -, hu⟩
  · rw [hu]
    exact .new s.limit
  · rw [hu]
    exact h
  · rw [hu]
    rintro g hg
    obtain rfl : f = g := Option.some.inj hg
    exact parse_text_of_parse hparse

theorem setVariable (h : s.Retypable) (name : String) (value : Bool) :
    (s.setVariable name value).1.Retypable := by
  rcases s.setVariable_cases name value with ⟨-, hset⟩ | ⟨-, symbols, -, hset⟩
  · rw [hset]
    exact h
  · rw [hset]
    exact h

/-- **A change leaves a session retypable**, also when it fails. -/
theorem step (h : s.Retypable) (event : SessionEvent) : (s.step event).Retypable := by
  cases event with
  | update text => exact h.update text
  | setVariable name value => exact h.setVariable name value

/-- **So does every history.** -/
theorem run (h : s.Retypable) (events : List SessionEvent) : (s.run events).Retypable :=
  run_induction (fun _ event hs => hs.step event) h events

end Retypable

theorem Reachable.retypable {limit : Nat} {s : Session} (h : s.Reachable limit) :
    s.Retypable := by
  obtain ⟨events, rfl⟩ := h
  exact (Retypable.new limit).run events

/-- A text that is read as a formula is not empty, so typing it does not start afresh. -/
theorem ne_empty_of_parse {limit : Nat} {text : String} {f : Formula}
    (h : parse limit text.toList = .ok f) : text ≠ "" := by
  rintro rfl
  have hempty : parse limit "".toList = .error .emptyInput := rfl
  rw [hempty] at h
  cases h

/-- **To type the canonical text of the formula does nothing** in any state that a session can
get into.  The text is read, the formula stays, and so do the names in the table, their values
and their order. -/
theorem update_text_eq_self {limit : Nat} {s : Session} (h : s.Reachable limit) {f : Formula}
    (hf : s.formula? = some f) : s.update f.text = (s, .ok ()) := by
  have hread : parse s.limit f.text.toList = .ok f := h.retypable f hf
  have hregister : s.symbols.register f = (s.symbols, .ok ()) :=
    SymbolTable.register_eq_self (isValidName_of_parse hread) (h.ready.mem_names f hf)
  obtain ⟨symbols, hstored, -, hupdate⟩ := update_of_parse_eq_ok (ne_empty_of_parse hread) hread
  rw [hregister] at hstored
  obtain rfl : s.symbols = symbols := congrArg Prod.fst hstored
  rw [hupdate, ← hf]

/-- After `r` is typed, then `p <> ~q`, which is as deep as limit 2 allows, `q` and the foreign
name `z` become true, and `p >` is typed, which cannot be read.  Typing `(p↔¬q)` then leaves the
session as it is, with four names in the order in which they came. -/
theorem update_text_eq_self_foreign_names :
    ∃ s : Session, s.Reachable 2 ∧ s.formula? = some (.iff (.var "p") (.neg (.var "q"))) ∧
      s.symbols.entries = [("r", false), ("p", false), ("q", true), ("z", true)] ∧
      s.update "(p↔¬q)" = (s, .ok ()) := by
  have hreach : Reachable 2 ((new 2).run [.update "r", .update "p <> ~q", .setVariable "q" true,
      .setVariable "z" true, .update "p >"]) := ⟨_, rfl⟩
  have hformula : ((new 2).run [.update "r", .update "p <> ~q", .setVariable "q" true,
      .setVariable "z" true, .update "p >"]).formula?
        = some (.iff (.var "p") (.neg (.var "q"))) := rfl
  have htext : (Formula.iff (.var "p") (.neg (.var "q"))).text = "(p↔¬q)" := rfl
  have hsame := update_text_eq_self hreach hformula
  rw [htext] at hsame
  exact ⟨_, hreach, hformula, rfl, hsame⟩

end Sentential.Session
