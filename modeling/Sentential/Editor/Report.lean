import Sentential.Diagram.Drawing
import Sentential.Editor.Session

/-!
# Reports on a formula

A report shows everything that is known of one formula under one assignment: its
text, its facts, the values of the variables, its evaluation tree and, if asked
for, its tableau.  The two trees are shown either as indented text or as drawings.

A report is printed part by part, as each part is found.  If one of them cannot be
made, the report breaks off, and what was printed before stays printed.

## Main definitions

* `ReportError`, `BrokenReport` — why a report breaks off, and what is left of it.
* `Report.session` — the session that a report is about.
* `Report.parts` — the parts of a report.
* `Report.print` — a report on a typed formula, as it is printed.
-/

namespace Sentential

/-- Why a report is not finished. -/
inductive ReportError where
  /-- Something failed. -/
  | fault (e : Fault)
  /-- There is no formula to report on. -/
  | noFormula
  deriving DecidableEq, Repr

/-- What is said in place of the rest of a report. -/
def ReportError.message : ReportError → String
  | .fault e => e.message
  | .noFormula => "no formula"

/-- A report that broke off. -/
structure BrokenReport where
  /-- What was printed before. -/
  printed : String
  /-- Why it broke off. -/
  cause : ReportError
  deriving DecidableEq, Repr

/-- What is said where a report broke off. -/
def BrokenReport.message (r : BrokenReport) : String := r.cause.message

namespace Report

/-! ### The session -/

/-- Gives several variables their values, up to the first that is refused. -/
def assignAll (s : Session) : List (String × Bool) → Except Fault Session
  | [] => .ok s
  | (name, value) :: rest =>
    match s.setVariable name value with
    | (s', .ok ()) => assignAll s' rest
    | (_, .error e) => .error e

/-- The session in which a formula is typed, and then variables are given `values`.
Variables of the formula that get no value there are false. -/
def session (typed : String) (values : List (String × Bool)) : Except Fault Session :=
  match (Session.new defaultLimit).update typed with
  | (_, .error e) => .error e
  | (s, .ok ()) => assignAll s values

/-! ### The text of the parts -/

/-- A truth value as its letter. -/
def valueText (value : Bool) : String := (Formula.valueChar value).toString

/-- The lines that show an evaluation tree as text. -/
def treeLines (t : EvalTree) : List String :=
  t.outline.map fun entry =>
    indent entry.level (entry.item.text ++ " [" ++ valueText entry.item.value ++ "]")

/-- What is shown behind the text of a node of a tableau: how it branches, or a
cross if it is a closed leaf. -/
def nodeMark (n : Node) : String :=
  match n.content with
  | .leaf _ true => " ✗"
  | .leaf _ false => ""
  | .branch true _ => " (or)"
  | .branch false _ => " (and)"

/-- The lines that show a tableau as text. -/
def tableauLines (t : Tableau) : List String :=
  t.outline.filterMap fun entry =>
    (t.node? entry.item).map fun n => indent (entry.level + 1) (n.text ++ nodeMark n)

/-- Lines of text, each with its end of line. -/
def unlines (lines : List String) : String := String.join (lines.map (· ++ "\n"))

/-- The lines with the facts about a formula that was typed as `typed`. -/
def factLines (typed : String) (summary : Summary) : List String :=
  ["Formula: " ++ String.ofList (displayForm typed.toList)] ++
    (match summary.mainConnective? with
      | some op => ["Main connective: " ++ toString op]
      | none => []) ++
    ["Nodes: " ++ toString summary.nodes ++
      "  Binary operators: " ++ toString summary.binaryOperators]

/-- The lines with the values of the variables. -/
def variableLines (entries : List (String × Bool)) : List String :=
  "Variables:" :: entries.map fun (name, value) => "  " ++ name ++ " = " ++ valueText value

/-- An evaluation tree as text or, if `drawn` is set, as a drawing. -/
def treeText (drawn : Bool) (t : EvalTree) : String :=
  if drawn then Dot.render (t.drawing {}) else unlines (treeLines t)

/-- A tableau as text or, if `drawn` is set, as a drawing, with its heading and the
number of its open leaves. -/
def tableauText (drawn : Bool) (t : Tableau) : String :=
  unlines ["Tableau:"] ++
    (if drawn then Dot.render (t.drawing {}) else unlines (tableauLines t)) ++
    unlines ["Open leaves: " ++ toString t.openLeaves.length]

/-! ### Printing -/

/-- The part of a report that shows what a session answers. -/
def answerPart {ε α : Type} (fault : ε → Fault) (text : α → String) :
    Except ε (Option α) → Except ReportError String
  | .error e => .error (.fault (fault e))
  | .ok none => .error .noFormula
  | .ok (some answer) => .ok (text answer)

/-- The part of a report in front of the trees. -/
def headPart (typed : String) (s : Session) : Except ReportError String :=
  match s.summary with
  | none => .error .noFormula
  | some summary =>
    .ok (unlines (factLines typed summary) ++ unlines (variableLines s.symbols.entries))

/-- The parts of the report on the formula of a session, which was typed as `typed`. -/
def parts (typed : String) (withTableau drawn : Bool) (s : Session) :
    List (Except ReportError String) :=
  [headPart typed s, answerPart .lookup (treeText drawn) s.evaluateTree] ++
    if withTableau then [answerPart .tableau (tableauText drawn) s.tableau] else []

/-- What is printed if the parts of a report are printed in order, up to the first that
cannot be made. -/
def printParts : List (Except ReportError String) → Except BrokenReport String
  | [] => .ok ""
  | .error e :: _ => .error ⟨"", e⟩
  | .ok part :: rest =>
    match printParts rest with
    | .ok text => .ok (part ++ text)
    | .error r => .error ⟨part ++ r.printed, r.cause⟩

/-- The report on a typed formula under `values`, as it is printed.  Nothing is printed
if the formula cannot be read. -/
def print (typed : String) (values : List (String × Bool)) (withTableau drawn : Bool) :
    Except BrokenReport String :=
  match session typed values with
  | .error e => .error ⟨"", .fault e⟩
  | .ok s => printParts (parts typed withTableau drawn s)

end Report

end Sentential
