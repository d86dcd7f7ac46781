import Std.Data.ExtTreeMap
import Std.Data.ExtTreeSet
import Spreadsheet.Cell.Column

namespace Spreadsheet

open Column (maxCoordinate)

@[ext] structure Cell where
  col : Nat
  row : Nat
  col_bound : 0 < col ∧ col ≤ maxCoordinate
  row_bound : 0 < row ∧ row ≤ maxCoordinate
deriving DecidableEq

namespace Cell

instance : Ord Cell where
  compare a b := (compare a.col b.col).then (compare a.row b.row)

instance : Std.TransOrd Cell :=
  inferInstanceAs (Std.TransCmp (compareLex (compareOn Cell.col) (compareOn Cell.row)))

instance : Std.LawfulEqOrd Cell where
  compare_self := Std.ReflCmp.compare_self
  eq_of_compare {a b} h := by
    obtain ⟨hc, hr⟩ := Ordering.then_eq_eq.mp h
    exact Cell.ext (Std.LawfulEqCmp.eq_of_compare hc) (Std.LawfulEqCmp.eq_of_compare hr)

instance : LT Cell := ltOfOrd

instance : LE Cell := leOfOrd

def of? (col row : Nat) : Option Cell :=
  if h : (0 < col ∧ col ≤ maxCoordinate) ∧ 0 < row ∧ row ≤ maxCoordinate then
    some ⟨col, row, h.1, h.2⟩
  else none

def chars (id : Cell) : List Char :=
  Column.letters id.col ++ Nat.toDigits 10 id.row

def name (id : Cell) : String :=
  String.ofList id.chars

instance : ToString Cell := ⟨name⟩

def ofChars? (cs : List Char) : Option Cell :=
  let digits := cs.dropWhile Char.isUpper
  if digits ≠ [] ∧ digits.all Char.isDigit then do
    let col ← Column.ofLetters? (cs.takeWhile Char.isUpper)
    of? col (Nat.ofDigitChars 10 digits 0)
  else none

def ofName? (name : String) : Option Cell :=
  ofChars? name.toList

@[simp] theorem of?_col_row (id : Cell) : of? id.col id.row = some id := by
  simp [of?, id.col_bound, id.row_bound]

def a1 : Cell := ⟨1, 1, by decide, by decide⟩

def a2 : Cell := ⟨1, 2, by decide, by decide⟩

def b1 : Cell := ⟨2, 1, by decide, by decide⟩

def b2 : Cell := ⟨2, 2, by decide, by decide⟩

def b7 : Cell := ⟨2, 7, by decide, by decide⟩

def c1 : Cell := ⟨3, 1, by decide, by decide⟩

def c3 : Cell := ⟨3, 3, by decide, by decide⟩

def c4 : Cell := ⟨3, 4, by decide, by decide⟩

def d1 : Cell := ⟨4, 1, by decide, by decide⟩

end Cell

abbrev CellSet := Std.ExtTreeSet Cell

abbrev CellMap (α : Type) := Std.ExtTreeMap Cell α

end Spreadsheet
