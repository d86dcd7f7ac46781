import Spreadsheet.Formula.Lexeme
import Spreadsheet.Formula.Raw
import Spreadsheet.Formula.Reduction

namespace Spreadsheet

namespace Formula

def finish : Reduced → Outcome Value
  | .value v => .ok v
  | .arithmetic ts => do return .number (← Arithmetic.value ts)

def value (policy : Policy) (lookup : Lookup) (formula : List Char) : Outcome Value := do
  finish (← reduce lookup (← tokens policy (Text.trim formula)))

end Formula

def Raw.evaluate (policy : Policy) (lookup : Lookup) (raw : String) : Outcome Value :=
  match formula? raw with
  | some formula => Formula.value policy lookup formula
  | none => .ok (.text raw)

end Spreadsheet
