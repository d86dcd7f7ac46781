import Spreadsheet.CommandLine.Options
import Spreadsheet.CommandLine.Report
import Spreadsheet.Document.Assignment
import Spreadsheet.Document.Edit
import Spreadsheet.Settings.Read

namespace Spreadsheet.CommandLine

structure Ending where
  exit : Nat
  output : String
  messages : String
deriving DecidableEq, Repr

def usage : String :=
  "Usage: tallysheet [OPTIONS] [ID=VALUE]...\n\n" ++
    "  -c, --config PATH      settings file\n" ++
    "  --max-iterations N     bound on the passes of an evaluation\n" ++
    "  --lenient              ignore stray characters in formulas\n" ++
    "  --bulk                 load all assignments before evaluating any\n" ++
    "  --delete-row ROW       delete a row after the assignments (repeatable)\n" ++
    "  --delete-column COL    delete a column after the assignments (repeatable)\n" ++
    "  --recompute            evaluate the whole sheet before printing it\n" ++
    "  --json                 print JSON\n"

def wrongUsage : Ending := ⟨2, "", "Error: wrong usage\n" ++ usage⟩

def failure (message : String) : Ending := ⟨1, "", "Error: " ++ message ++ "\n"⟩

def override (o : Options) (settings : Settings) : Settings where
  maxPasses := o.maxPasses.getD settings.maxPasses
  policy := if o.lenient then .lenient else settings.policy

def loadSettings {m : Type → Type} [Monad m] (readFile : String → m File)
    (standardFile : Option String) (o : Options) : m (Except String Settings) := do
  match o.settingsFile, standardFile with
  | some path, _ => return (Settings.ofFile (← readFile path)).mapError fun _ => path
  | none, some path => return (Settings.ofOptionalFile (← readFile path)).mapError fun _ => path
  | none, none => return .ok .standard

def fill (o : Options) (d : Document) (assignments : List Assignment) :
    Document × Option Stats :=
  if o.bulk then
    let (d', stats) := d.load (assignments.map fun a => (a.target, a.raw))
    (d', some stats)
  else (assignments.foldl (fun d a => (d.write a.target a.raw).1) d, none)

def build (o : Options) (settings : Settings) (assignments : List Assignment)
    (columns : List Nat) : Document × Option Stats :=
  let (filled, stats) := fill o (.empty settings) assignments
  let rowsDeleted := o.deletedRows.foldl (fun d row => (d.deleteRow row).1) filled
  let d := columns.foldl (fun d col => (d.deleteColumn col).1) rowsDeleted
  if o.settle then
    let (d', stats) := d.refreshAll
    (d', some stats)
  else (d, stats)

def report (o : Options) (s : Sheet) (stats : Option Stats) : Ending :=
  if o.json then ⟨0, Report.json s stats, ""⟩
  else ⟨0, Report.lines s, (stats.map Report.statsLine).getD ""⟩

def execute (o : Options) (settings : Settings) : Except InputError Ending := do
  let assignments ← o.assignments.mapM Input.assignment
  let columns ← o.deletedColumns.mapM Input.column
  let (d, stats) := build o settings assignments columns
  return report o d.sheet stats

def run {m : Type → Type} [Monad m] (readFile : String → m File)
    (standardFile : Option String) (args : List String) : m Ending := do
  match Options.read? .empty args with
  | none => return wrongUsage
  | some .help => return ⟨0, usage, ""⟩
  | some .version => return ⟨0, "tallysheet 0.1.0\n", ""⟩
  | some (.run o) =>
    match ← loadSettings readFile standardFile o with
    | .error path => return failure ("failed to load config " ++ path)
    | .ok settings =>
      match execute o (override o settings) with
      | .error e => return failure e.message
      | .ok ending => return ending

end Spreadsheet.CommandLine
