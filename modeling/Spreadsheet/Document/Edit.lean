import Spreadsheet.Document.Basic

namespace Spreadsheet.Document

def refreshReaders (d : Document) (id : Cell) : Document :=
  (d.refresh (d.graph.downstream {id}).toList).1

/-- Give every other formula that mentions a cell its edges back. -/
def reconnect (d : Document) (target : Cell) : Document :=
  d.sheet.records.toList.foldl
    (fun d (id, r) =>
      if id ≠ target ∧ target ∈ Raw.references r.raw then d.connect id r.raw else d)
    d

def clear (d : Document) (id : Cell) : Document :=
  let d' := { d with
    sheet := d.sheet.clear id
    graph := d.graph.setReads id ∅ }
  if (d.sheet.get? id).isSome then d'.refreshReaders id else d'

def evaluateCell (d : Document) (id : Cell) : Document :=
  { d with sheet :=
      if d.graph.reachesCycle id then d.sheet.fail .cycle [id]
      else d.sheet.refresh d.settings.policy id }

def write (d : Document) (id : Cell) (raw : String) : Document × Option CellError :=
  if Raw.isBlank raw then (d.clear id, none)
  else
    let connected := (if d.sheet.isDeleted id then d.reconnect id else d).connect id raw
    let written := { connected with sheet := connected.sheet.write id raw }
    let d' := (written.evaluateCell id).refreshReaders id
    (d', (d'.sheet.get? id).bind Record.error?)

def detach : Document × CellSet → Cell → Document × CellSet
  | (d, former), id =>
    ({ d with sheet := d.sheet.delete id, graph := d.graph.isolate id },
      former ∪ d.graph.otherReaders id)

def delete (d : Document) (ids : List Cell) : Document × CellSet :=
  let (d', former) := ids.foldl detach (d, ∅)
  let invalid := (d'.graph.downstream former ∪ former) \ Std.ExtTreeSet.ofList ids
  ({ d' with sheet := d'.sheet.fail .deletedCell invalid.toList }, invalid)

def cellsWhere (d : Document) (p : Cell → Bool) : List Cell :=
  (Std.ExtTreeSet.ofList ((d.sheet.ids ++ d.graph.cells.toList).filter p)).toList

def deleteRow (d : Document) (row : Nat) : Document × CellSet :=
  d.delete (d.cellsWhere (·.row = row))

def deleteColumn (d : Document) (col : Nat) : Document × CellSet :=
  d.delete (d.cellsWhere (·.col = col))

end Spreadsheet.Document
