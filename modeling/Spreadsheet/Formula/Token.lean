import Spreadsheet.Cell.Rectangle
import Spreadsheet.Value

namespace Spreadsheet

inductive Operator
  | add
  | sub
  | mul
  | div
deriving DecidableEq, Repr

namespace Operator

def precedence : Operator → Nat
  | add | sub => 1
  | mul | div => 2

def apply : Operator → Float → Float → Outcome Float
  | add, x, y => .ok (x + y)
  | sub, x, y => .ok (x - y)
  | mul, x, y => .ok (x * y)
  | div, x, y => if y == 0 then .error .zeroDivision else .ok (x / y)

end Operator

inductive Aggregate
  | sum
  | average
deriving DecidableEq, Repr

namespace Aggregate

def name : Aggregate → String
  | sum => "SUM"
  | average => "AVG"

def ofName? (name : String) : Option Aggregate :=
  [sum, average].find? (·.name = name)

def total (xs : List Float) : Float :=
  xs.foldl (· + ·) 0

def apply : Aggregate → List Float → Outcome Float
  | sum, xs => .ok (total xs)
  | average, [] => .error .zeroDivision
  | average, xs => .ok (total xs / Float.ofNat xs.length)

end Aggregate

inductive Token
  | number (x : Float)
  | cell (id : Cell)
  | range (r : Rectangle)
  | operator (op : Operator)
  | call (f : Aggregate)
  | openParen
  | closeParen
  | comma
deriving DecidableEq

def Token.ofMark? : Char → Option Token
  | '+' => some (.operator .add)
  | '-' => some (.operator .sub)
  | '*' => some (.operator .mul)
  | '/' => some (.operator .div)
  | '(' => some .openParen
  | ')' => some .closeParen
  | ',' => some .comma
  | _ => none

end Spreadsheet
