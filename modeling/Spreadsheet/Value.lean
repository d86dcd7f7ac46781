import Spreadsheet.Cell.Basic
import Spreadsheet.Number.Numeral

namespace Spreadsheet

inductive CellError
  | malformed
  | badValue
  | zeroDivision
  | deletedCell
  | cycle
deriving DecidableEq, Repr

namespace CellError

def text : CellError → String
  | malformed => "#SYNTAX!"
  | badValue => "#VALUE!"
  | zeroDivision => "#DIV/0!"
  | deletedCell => "#REF!"
  | cycle => "#CYCLE!"

def all : List CellError :=
  [malformed, badValue, zeroDivision, deletedCell, cycle]

def ofText? (s : String) : Option CellError :=
  all.find? (·.text = s)

theorem ofText?_text (code : CellError) : ofText? code.text = some code := by
  cases code <;> decide

end CellError

abbrev Outcome (α : Type) := Except CellError α

inductive Value
  | empty
  | number (x : Float)
  | text (s : String)
  | error (code : CellError)

namespace Value

def displayNumber (x : Float) : String :=
  if Number.isFinite x then String.ofList (Number.text x) else CellError.badValue.text

def display : Value → String
  | empty => ""
  | number x => displayNumber x
  | text s => s
  | error code => code.text

def ofDisplay (s : String) : Value :=
  if s = "" then empty
  else
    match CellError.ofText? s with
    | some code => error code
    | none => text s

def number? : Value → Option Float
  | number x => some x
  | text s => Number.ofText? s
  | empty | error _ => none

end Value

abbrev Lookup := Cell → Value

end Spreadsheet
