import Spreadsheet.Formula.Mention
import Spreadsheet.Formula.Raw

namespace Spreadsheet

def Mention.cells : Mention → List Cell
  | single name => (Cell.ofChars? name).toList
  | pair first last =>
    match Cell.ofChars? first, Cell.ofChars? last with
    | some a, some b => (Rectangle.cells? ⟨a, b⟩).getD []
    | some a, none => [a]
    | none, _ => []

namespace References

def mentions : List Char → List Mention
  | [] => []
  | c :: cs =>
    match _hm : Mention.split? (c :: cs) with
    | some (m, rest) => m :: mentions rest
    | none => mentions cs
termination_by cs => cs.length
decreasing_by
  · exact Mention.length_of_split? _hm
  · simp

def ofFormula (cs : List Char) : CellSet :=
  Std.ExtTreeSet.ofList ((mentions cs).flatMap Mention.cells)

end References

def Raw.references (raw : String) : CellSet :=
  match formula? raw with
  | some formula => References.ofFormula formula
  | none => ∅

end Spreadsheet
