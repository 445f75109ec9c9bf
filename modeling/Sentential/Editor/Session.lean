import Sentential.Fault
import Sentential.Formula.NormalForm
import Sentential.Reading.Parse
import Sentential.Valuation.Evaluation

/-!
# Editing sessions

A session is what lies behind an editor for one formula: the last text that could
be read, as a formula, and the values of all variables seen so far.  A text that
cannot be read changes nothing, so what was there before can still be shown; the
empty text starts afresh.

## Main definitions

* `Session`, `Session.new` — the state behind an editor.
* `Session.update`, `Session.setVariable` — the two ways in which it changes.
* `Session.evaluate`, `Session.evaluateTree`, `Session.tableau`,
  `Session.summary` — what can be asked of it.
* `SessionEvent`, `Session.step`, `Session.run` — the changes as data, for
  histories.
* `SessionCall`, `Session.call`, `Session.serve` — changes and questions, in any
  order.
-/

namespace Sentential

/-- The state behind an editor. -/
structure Session where
  /-- The limit within which texts are read. -/
  limit : Nat
  /-- The values of the variables. -/
  symbols : SymbolTable
  /-- The formula that was read last, if there is one. -/
  formula? : Option Formula
  deriving DecidableEq, Repr

/-- Facts about the current formula. -/
structure Summary where
  /-- The binary connective at the root, if there is one. -/
  mainConnective? : Option BinaryOp
  /-- The number of nodes. -/
  nodes : Nat
  /-- The number of binary connectives. -/
  binaryOperators : Nat
  deriving DecidableEq, Repr

/-- The facts about a formula. -/
def Formula.summary (f : Formula) : Summary :=
  ⟨f.mainConnective?, f.size, f.count isBinary⟩

namespace Session

/-- A session without formula and variables. -/
def new (limit : Nat) : Session := ⟨limit, .empty, none⟩

/-! ### Changes -/

/-- The session after a new text, and whether the text could be read.  The empty
text drops the formula and all values.  Any other text that can be read becomes
the formula, and its new variables become false. -/
def update (s : Session) (text : String) : Session × Except Fault Unit :=
  if text == "" then (new s.limit, .ok ())
  else
    match parse s.limit text.toList with
    | .error e => (s, .error (.parse e))
    | .ok f =>
      match s.symbols.register f with
      | (symbols, .ok ()) => (⟨s.limit, symbols, some f⟩, .ok ())
      | (symbols, .error e) => (⟨s.limit, symbols, s.formula?⟩, .error (.name e))

/-- The session after a variable is given a value, and whether it could be. -/
def setVariable (s : Session) (name : String) (value : Bool) : Session × Except Fault Unit :=
  match s.symbols.set name value with
  | .ok symbols => (⟨s.limit, symbols, s.formula?⟩, .ok ())
  | .error e => (s, .error (.name e))

/-! ### Queries -/

/-- The value of the formula, if there is a formula. -/
def evaluate (s : Session) : Except LookupError (Option Bool) :=
  match s.formula? with
  | none => .ok none
  | some f => (f.evaluate s.symbols).map some

/-- The evaluation tree of the formula, if there is a formula. -/
def evaluateTree (s : Session) : Except LookupError (Option EvalTree) :=
  match s.formula? with
  | none => .ok none
  | some f => (f.evaluateTree s.symbols).map some

/-- The tableau of the normal form of the formula, if there is a formula. -/
def tableau (s : Session) : Except TableauError (Option Tableau) :=
  match s.formula? with
  | none => .ok none
  | some f => f.toNnf.tableau.map some

/-- The facts about the formula, if there is a formula. -/
def summary (s : Session) : Option Summary := s.formula?.map Formula.summary

end Session

/-! ### Histories -/

/-- A change to a session. -/
inductive SessionEvent where
  /-- The text in the editor becomes `text`. -/
  | update (text : String)
  /-- A variable is given a value. -/
  | setVariable (name : String) (value : Bool)
  deriving DecidableEq, Repr

namespace Session

/-- The session after a change, failed changes included. -/
def step (s : Session) : SessionEvent → Session
  | .update text => (s.update text).1
  | .setVariable name value => (s.setVariable name value).1

/-- Whether a change could be made. -/
def outcome (s : Session) : SessionEvent → Except Fault Unit
  | .update text => (s.update text).2
  | .setVariable name value => (s.setVariable name value).2

/-- The session after a history of changes. -/
def run (s : Session) (events : List SessionEvent) : Session := events.foldl step s

end Session

/-! ### Calls -/

/-- What can be asked of a session. -/
inductive SessionQuery where
  /-- Which formula was read last. -/
  | formula
  /-- Which values the variables have. -/
  | symbols
  /-- Which value the formula has. -/
  | evaluate
  /-- Which values its subformulas have. -/
  | evaluateTree
  /-- What its tableau is. -/
  | tableau
  /-- What the facts about it are. -/
  | summary
  deriving DecidableEq, Repr

/-- A call of a session. -/
inductive SessionCall where
  /-- A change is made. -/
  | change (event : SessionEvent)
  /-- Something is asked. -/
  | ask (query : SessionQuery)
  deriving DecidableEq, Repr

/-- What a session replies to a call. -/
inductive SessionReply where
  /-- Whether the change could be made. -/
  | changed (outcome : Except Fault Unit)
  /-- The formula, if there is one. -/
  | formula (formula? : Option Formula)
  /-- The values of the variables. -/
  | symbols (symbols : SymbolTable)
  /-- The value of the formula. -/
  | value (answer : Except LookupError (Option Bool))
  /-- Its evaluation tree. -/
  | tree (answer : Except LookupError (Option EvalTree))
  /-- Its tableau. -/
  | tableau (answer : Except TableauError (Option Tableau))
  /-- The facts about it. -/
  | summary (answer : Option Summary)

namespace Session

/-- What a session answers to a question. -/
def answer (s : Session) : SessionQuery → SessionReply
  | .formula => .formula s.formula?
  | .symbols => .symbols s.symbols
  | .evaluate => .value s.evaluate
  | .evaluateTree => .tree s.evaluateTree
  | .tableau => .tableau s.tableau
  | .summary => .summary s.summary

/-- The session after a call, and its reply. -/
def call (s : Session) : SessionCall → Session × SessionReply
  | .change event => (s.step event, .changed (s.outcome event))
  | .ask query => (s, s.answer query)

/-- The session after several calls. -/
def serve (s : Session) (calls : List SessionCall) : Session :=
  calls.foldl (fun s c => (s.call c).1) s

end Session

end Sentential
