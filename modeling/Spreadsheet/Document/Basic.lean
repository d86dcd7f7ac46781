import Spreadsheet.Dependency.Closure
import Spreadsheet.Dependency.Cycle
import Spreadsheet.Formula.References
import Spreadsheet.Settings.Basic
import Spreadsheet.Sheet.Passes

namespace Spreadsheet

structure Document where
  sheet : Sheet
  graph : Graph
  settings : Settings

namespace Document

def empty (settings : Settings) : Document := ⟨.empty, .empty, settings⟩

def refresh (d : Document) (ids : List Cell) : Document × Stats :=
  let reaching := d.graph.cyclicAmong ids
  let (cyclic, acyclic) := ids.partition (· ∈ reaching)
  let (sheet, stats) := (d.sheet.fail .cycle cyclic).settle d.settings.policy
    d.settings.maxPasses acyclic
  ({ d with sheet }, stats)

def connect (d : Document) (id : Cell) (raw : String) : Document :=
  { d with graph := d.graph.setReads id (Raw.references raw) }

def refreshAll (d : Document) : Document × Stats :=
  let connected := d.sheet.records.toList.foldl (fun d (id, r) => d.connect id r.raw) d
  let (d', stats) := connected.refresh d.sheet.ids
  let (valid, errors) := d'.sheet.counts d'.sheet.ids
  (d', { stats with valid, errors })

def load (d : Document) (cells : List (Cell × String)) : Document × Stats :=
  let filled := cells.filter fun (_, raw) => !Raw.isBlank raw
  { d with sheet := filled.foldl (fun s (id, raw) => s.write id raw) d.sheet }.refreshAll

end Document

end Spreadsheet
