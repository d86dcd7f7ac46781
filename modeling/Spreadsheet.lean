import Spreadsheet.Text.Blank
import Spreadsheet.Value
import Spreadsheet.Cell.Rectangle
import Spreadsheet.Formula.References
import Spreadsheet.Formula.Lexeme
import Spreadsheet.Formula.Evaluation
import Spreadsheet.Dependency.Closure
import Spreadsheet.Dependency.Cycle
import Spreadsheet.Document.Edit
import Spreadsheet.Document.Assignment
import Spreadsheet.Main
import Spreadsheet.Proofs.Dependency.CycleSearch
import Spreadsheet.Proofs.Dependency.FoundCycle
import Spreadsheet.Proofs.Formula.Mentions
import Spreadsheet.Proofs.Formula.Lexing
import Spreadsheet.Proofs.Formula.Reading
import Spreadsheet.Proofs.Sheet.Settling
import Spreadsheet.Proofs.Sheet.Editing
import Spreadsheet.Proofs.Document.Mirror
import Spreadsheet.Proofs.Document.Verdict
import Spreadsheet.Proofs.Document.Run
import Spreadsheet.Proofs.Document.History
import Spreadsheet.Proofs.Document.Persistence
import Spreadsheet.Proofs.Formula.Grammar
import Spreadsheet.Proofs.Formula.Postfix
import Spreadsheet.Proofs.Formula.Acceptance
import Spreadsheet.Proofs.Formula.Blame
import Spreadsheet.Proofs.Formula.Meaning
import Spreadsheet.Proofs.Formula.Nesting
import Spreadsheet.Proofs.Formula.Expression
import Spreadsheet.Proofs.Document.Errors
import Spreadsheet.Proofs.Dependency.Chains
import Spreadsheet.Proofs.Sheet.Solution
import Spreadsheet.Proofs.Dependency.Changes
import Spreadsheet.Proofs.Document.Consistency
import Spreadsheet.Proofs.CommandLine.Bulk
import Spreadsheet.Proofs.Formula.Layout
import Spreadsheet.Proofs.Formula.Leniency
import Spreadsheet.Proofs.Document.Deletion
import Spreadsheet.Proofs.Document.Frame
import Spreadsheet.Proofs.Document.Lines
import Spreadsheet.Proofs.Sheet.Stability
import Spreadsheet.Proofs.Sheet.Listed
import Spreadsheet.Proofs.Cell.Column
import Spreadsheet.Proofs.Cell.Name
import Spreadsheet.Proofs.Cell.Rectangle
import Spreadsheet.Proofs.Document.Assignment
import Spreadsheet.Proofs.Sheet.Relay
import Spreadsheet.Proofs.Number.Integral
import Spreadsheet.Proofs.Sheet.StoredNumbers
import Spreadsheet.Proofs.Formula.Splitting
import Spreadsheet.Proofs.Dependency.Rounds
import Spreadsheet.Proofs.Dependency.Termination
