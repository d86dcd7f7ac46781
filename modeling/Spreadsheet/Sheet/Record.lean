import Spreadsheet.Formula.Evaluation

namespace Spreadsheet

inductive Shown
  | text (s : String)
  | error (code : CellError)
deriving DecidableEq

def Shown.ofResult : Outcome Value → Shown
  | .ok (.error code) => error code
  | .ok value => text value.display
  | .error code => error code

structure Record where
  raw : String
  shown : Shown
deriving DecidableEq

namespace Record

def ofRaw (raw : String) : Record where
  raw := raw
  shown := .text (if Raw.isFormula raw then "" else raw)

/-- A rewritten formula keeps what the cell showed before. -/
def rewrite (r : Record) (raw : String) : Record :=
  if r.raw = raw then r
  else if Raw.isFormula raw then { r with raw }
  else ofRaw raw

def error? (r : Record) : Option CellError :=
  match r.shown with
  | .text _ => none
  | .error code => some code

def value (r : Record) : String :=
  match r.shown with
  | .text s => s
  | .error code => code.text

theorem value_of_error? {r : Record} {code : CellError} (h : r.error? = some code) :
    r.value = code.text := by
  cases hs : r.shown with
  | text s => simp [error?, hs] at h
  | error c =>
    simp only [error?, hs, Option.some_inj] at h
    rw [value, hs, h]

def reading (r : Record) : Value :=
  match r.shown with
  | .text s => if s = "" then .empty else .text s
  | .error code => .error code

def fail (r : Record) (code : CellError) : Record :=
  { r with shown := .error code }

def apply (r : Record) (result : Outcome Value) : Record :=
  { r with shown := .ofResult result }

end Record

end Spreadsheet
