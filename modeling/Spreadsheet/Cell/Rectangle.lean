import Spreadsheet.Cell.Basic

namespace Spreadsheet

structure Rectangle where
  first : Cell
  last : Cell
deriving DecidableEq

namespace Rectangle

def maxCells : Nat := 1000000

def left (r : Rectangle) : Nat := min r.first.col r.last.col

def right (r : Rectangle) : Nat := max r.first.col r.last.col

def top (r : Rectangle) : Nat := min r.first.row r.last.row

def bottom (r : Rectangle) : Nat := max r.first.row r.last.row

def size (r : Rectangle) : Nat :=
  (r.right - r.left + 1) * (r.bottom - r.top + 1)

def column (r : Rectangle) (col : Nat) : List Cell :=
  (List.range' r.top (r.bottom - r.top + 1)).filterMap (Cell.of? col)

def cells? (r : Rectangle) : Option (List Cell) :=
  if r.size ≤ maxCells then
    some ((List.range' r.left (r.right - r.left + 1)).flatMap r.column)
  else none

end Rectangle

end Spreadsheet
