import Spreadsheet.Cell.Basic
import Spreadsheet.Text.Blank

namespace Spreadsheet

inductive InputError
  | cell (text : String)
  | column (text : String)
  | assignment (text : String)
deriving DecidableEq, Repr

namespace InputError

def message : InputError → String
  | cell text => "Invalid cell reference: " ++ text
  | column text => "Invalid column: " ++ text
  | assignment text => "Invalid assignment (expected ID=VALUE): " ++ text

end InputError

structure Assignment where
  target : Cell
  raw : String
deriving DecidableEq

namespace Input

def capitals (cs : List Char) : List Char :=
  cs.map Char.toUpper

def cell (cs : List Char) : Except InputError Cell :=
  let name := Text.trim cs
  match Cell.ofChars? (capitals name) with
  | some id => .ok id
  | none => .error (.cell (String.ofList name))

def column (text : String) : Except InputError Nat :=
  let name := Text.trim text.toList
  match Column.ofLetters? (capitals name) with
  | some n => .ok n
  | none => .error (.column (String.ofList name))

def assignment (text : String) : Except InputError Assignment :=
  let cs := text.toList
  match cs.dropWhile (· ≠ '=') with
  | [] => .error (.assignment text)
  | _ :: raw => do return ⟨← cell (cs.takeWhile (· ≠ '=')), String.ofList raw⟩

end Input

end Spreadsheet
