import Spreadsheet.Dependency.Closure
import Spreadsheet.Dependency.Cycle

/-! The searches of the graph as loops. A round falls back where the set, the list and the stack of
a path do not match. -/

namespace Spreadsheet

/-- What a round comes to: an answer, or another state with the cells that it pushed, the last one
first. -/
inductive Round (σ α : Type)
  | stop (answer : α)
  | go (pushed : List Cell) (state : σ)

namespace CycleSearch

structure Walk where
  finished : CellSet
  onPath : CellSet
  path : List Cell
  stack : List (List Cell)

namespace Walk

def children (g : Graph) (c : Cell) : List Cell :=
  (g.reads c).toList

def start (g : Graph) (finished : CellSet) (c : Cell) : Walk :=
  ⟨finished, {c}, [c], [children g c]⟩

def retreat (w : Walk) (stack : List (List Cell)) : Walk :=
  match w.path with
  | [] => { w with stack }
  | c :: path => ⟨w.finished.insert c, w.onPath.erase c, path, stack⟩

def enter (g : Graph) (w : Walk) (d : Cell) : Walk :=
  ⟨w.finished, w.onPath.insert d, d :: w.path, children g d :: w.stack⟩

def loop (w : Walk) (d : Cell) : List Cell :=
  w.path.reverse.drop ((w.path.reverse.idxOf? d).getD 0) ++ [d]

def seek (g : Graph) (w : Walk) : Round Walk (Option (List Cell)) :=
  match w.stack with
  | [] => .stop none
  | [] :: stack => .go [] (w.retreat stack)
  | (d :: pending) :: stack =>
    let w := { w with stack := pending :: stack }
    if d ∈ w.onPath then .stop (some (w.loop d))
    else if d ∈ w.finished then .go [] w
    else .go [d] (w.enter g d)

end Walk

structure Sweep where
  starts : List Cell
  walk : Walk
  reaching : CellSet

namespace Sweep

def ofStarts (starts : List Cell) : Sweep :=
  ⟨starts, ⟨∅, ∅, [], []⟩, ∅⟩

def passOn (reaching : CellSet) : List Cell → CellSet
  | c :: parent :: _ => if c ∈ reaching then reaching.insert parent else reaching
  | _ => reaching

def round (g : Graph) (s : Sweep) : Round Sweep CellSet :=
  match s.walk.stack with
  | [] =>
    match s.starts with
    | [] => .stop s.reaching
    | c :: starts =>
      if c ∈ s.walk.finished then .go [] { s with starts }
      else .go [c] ⟨starts, .start g s.walk.finished c, s.reaching⟩
  | [] :: stack => .go [] ⟨s.starts, s.walk.retreat stack, passOn s.reaching s.walk.path⟩
  | (d :: pending) :: stack =>
    let w := { s.walk with stack := pending :: stack }
    match w.path with
    | [] => .go [] { s with walk := { w with stack := [] } }
    | c :: _ =>
      if d ∈ w.onPath then .go [] ⟨s.starts, w, s.reaching.insert c⟩
      else if d ∈ w.finished then
        .go [] ⟨s.starts, w, if d ∈ s.reaching then s.reaching.insert c else s.reaching⟩
      else .go [d] ⟨s.starts, w.enter g d, s.reaching⟩

end Sweep

end CycleSearch

namespace Closure

structure Spread where
  found : CellSet
  work : List Cell

/-- The readers of the cell that was put on the work list last differ from one another, so those new
in this round are those not found before it. -/
def Spread.round (readers : Cell → List Cell) (s : Spread) : Round Spread CellSet :=
  match s.work with
  | [] => .stop s.found
  | c :: work =>
    let new := (readers c).filter (· ∉ s.found)
    .go new.reverse ⟨s.found ∪ .ofList new, new.reverse ++ work⟩

end Closure

end Spreadsheet
