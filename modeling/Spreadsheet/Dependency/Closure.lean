import Spreadsheet.Dependency.Graph

namespace Spreadsheet

namespace Closure

/-- Add to `found` all that is reached from the work list, along edges that are not cleared yet. -/
def explore (unexplored : Adjacency) (found : CellSet) : List Cell → CellSet
  | [] => found
  | c :: work =>
    if unexplored.of c = ∅ then explore unexplored found work
    else
      explore (unexplored.clear c) (found ∪ unexplored.of c) ((unexplored.of c).toList ++ work)
termination_by work => (unexplored.size, work.length)
decreasing_by
  · exact Prod.Lex.right _ (Nat.lt_succ_self _)
  · exact Prod.Lex.left _ _ (Adjacency.size_clear_lt ‹_›)

end Closure

def Graph.downstream (g : Graph) (seeds : CellSet) : CellSet :=
  Closure.explore g.backward ∅ seeds.toList \ seeds

end Spreadsheet
