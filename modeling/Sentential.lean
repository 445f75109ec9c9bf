import Sentential.Valuation.TruthTable
import Sentential.Main
import Sentential.Proofs.EvaluationTrees
import Sentential.Proofs.Balance
import Sentential.Proofs.Settled
import Sentential.Proofs.TopLevel
import Sentential.Proofs.OneLevel
import Sentential.Proofs.Grammar
import Sentential.Proofs.RoundTrip
import Sentential.Proofs.Layout
import Sentential.Proofs.Meaning
import Sentential.Proofs.Closure
import Sentential.Proofs.Polarity
import Sentential.Proofs.Normalizing
import Sentential.Proofs.BracketFaults
import Sentential.Proofs.Limits
import Sentential.Proofs.Leaves
import Sentential.Proofs.Symbols
import Sentential.Proofs.TableHistory
import Sentential.Proofs.Reports
import Sentential.Proofs.Answers
import Sentential.Proofs.Refutation
import Sentential.Proofs.Histories
import Sentential.Proofs.Provenance
import Sentential.Proofs.TreeOrder
import Sentential.Proofs.Recovery
import Sentential.Proofs.Growth
import Sentential.Proofs.Characters
import Sentential.Proofs.FormulaDrawings
import Sentential.Proofs.TableauDrawings
import Sentential.Proofs.Misplaced
import Sentential.Proofs.NormalFormDepth
import Sentential.Proofs.OneScan
import Sentential.Proofs.Retyping
import Sentential.Proofs.OuterPair
import Sentential.Proofs.Spacing
import Sentential.Proofs.MissingVariables
import Sentential.Proofs.StackDrawing
import Sentential.Proofs.Numbering
import Sentential.Proofs.PrintedTrees
import Sentential.Proofs.Prefixes
import Sentential.Proofs.Tokens
import Sentential.Proofs.Unwrapping
import Sentential.Proofs.Escaping
import Sentential.Proofs.RootSteps
import Sentential.Proofs.Registering
