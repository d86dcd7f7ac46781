import Spreadsheet.Text.Blank

namespace Spreadsheet.Raw

def formula? (raw : String) : Option (List Char) :=
  match raw.toList with
  | '=' :: formula => some formula
  | _ => none

def isFormula (raw : String) : Bool :=
  (formula? raw).isSome

def isBlank (raw : String) : Bool :=
  raw.toList.all Text.isBlank

end Spreadsheet.Raw
