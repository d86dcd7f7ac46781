import Spreadsheet.Dependency.Graph

/-! Depth-first search along the cells that are read. A cell without unexplored edges is expanded
already or reads nothing, so it closes a cycle exactly if it is on the path. -/

namespace Spreadsheet

namespace CycleSearch

structure Frame where
  cell : Cell
  pending : List Cell

abbrev Path := List Frame

namespace Path

def cells (path : Path) : List Cell :=
  path.map Frame.cell

def contains (path : Path) (c : Cell) : Bool :=
  path.any (·.cell = c)

/-- How many steps a search can take on a path before it expands another cell. -/
def load : Path → Nat
  | [] => 0
  | f :: path => f.pending.length + 1 + load path

def loop (path : Path) (c : Cell) : List Cell :=
  c :: (path.cells.takeWhile (· ≠ c)).reverse ++ [c]

theorem load_cons (f : Frame) (path : Path) : load (f :: path) = f.pending.length + 1 + load path :=
  rfl

end Path

open CycleSearch.Path

def find (unexplored : Adjacency) : Path → Option (List Cell)
  | [] => none
  | ⟨_, []⟩ :: path => find unexplored path
  | ⟨c, d :: pending⟩ :: path =>
    if unexplored.of d = ∅ then
      if contains (⟨c, pending⟩ :: path) d then some (loop (⟨c, pending⟩ :: path) d)
      else find unexplored (⟨c, pending⟩ :: path)
    else
      find (unexplored.clear d) (⟨d, (unexplored.of d).toList⟩ :: ⟨c, pending⟩ :: path)
termination_by path => (unexplored.size, load path)
decreasing_by
  · exact Prod.Lex.right _ (by simp [load_cons])
  · exact Prod.Lex.right _ (by simp [load_cons])
  · exact Prod.Lex.left _ _ (Adjacency.size_clear_lt ‹_›)

def inherit (reaching : CellSet) (c : Cell) : Path → CellSet
  | [] => reaching
  | f :: _ => if c ∈ reaching then reaching.insert f.cell else reaching

/-- Search on beyond the first cycle, adding to `reaching` the cells from which one is reached. -/
def mark (unexplored : Adjacency) (reaching : CellSet) : Path → Adjacency × CellSet
  | [] => (unexplored, reaching)
  | ⟨c, []⟩ :: path => mark unexplored (inherit reaching c path) path
  | ⟨c, d :: pending⟩ :: path =>
    if unexplored.of d = ∅ then
      if contains (⟨c, pending⟩ :: path) d ∨ d ∈ reaching then
        mark unexplored (reaching.insert c) (⟨c, pending⟩ :: path)
      else mark unexplored reaching (⟨c, pending⟩ :: path)
    else
      mark (unexplored.clear d) reaching (⟨d, (unexplored.of d).toList⟩ :: ⟨c, pending⟩ :: path)
termination_by path => (unexplored.size, load path)
decreasing_by
  · exact Prod.Lex.right _ (by simp [load_cons])
  · exact Prod.Lex.right _ (by simp [load_cons])
  · exact Prod.Lex.right _ (by simp [load_cons])
  · exact Prod.Lex.left _ _ (Adjacency.size_clear_lt ‹_›)

def start (unexplored : Adjacency) (c : Cell) : Adjacency × Path :=
  (unexplored.clear c, [⟨c, (unexplored.of c).toList⟩])

def markAll : List Cell → Adjacency × CellSet → Adjacency × CellSet
  | [], state => state
  | c :: starts, (unexplored, reaching) =>
    let (edges, path) := start unexplored c
    markAll starts (mark edges reaching path)

end CycleSearch

open CycleSearch

namespace Graph

def cycleFrom? (g : Graph) (c : Cell) : Option (List Cell) :=
  let (edges, path) := start g.forward c
  find edges path

def reachesCycle (g : Graph) (c : Cell) : Bool :=
  (g.cycleFrom? c).isSome

def cyclicAmong (g : Graph) (starts : List Cell) : CellSet :=
  let (_, reaching) := markAll starts (g.forward, ∅)
  (Std.ExtTreeSet.ofList starts).filter (· ∈ reaching)

end Graph

end Spreadsheet
