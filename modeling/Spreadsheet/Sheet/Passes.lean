import Spreadsheet.Sheet.Basic

/-! A pass evaluates every listed cell once, in descending order, on the sheet as it stands. -/

namespace Spreadsheet

structure Stats where
  passes : Nat
  stable : Bool
  valid : Nat
  errors : Nat
deriving DecidableEq, Repr

namespace Sheet

def step (policy : Policy) : Sheet × Bool → Cell → Sheet × Bool
  | (s, changed), id =>
    match s.get? id with
    | none => (s, changed)
    | some r =>
      let r' := r.apply (s.evaluate policy r.raw)
      if r' = r then (s, changed) else (s.put id r', true)

def pass (policy : Policy) (order : List Cell) (s : Sheet) : Sheet × Bool :=
  order.foldl (step policy) (s, false)

/-- At most `cap` passes, `done` being made before. The result comes with their number and with
whether the last one changed nothing. -/
def passes (policy : Policy) (order : List Cell) : (cap done : Nat) → Sheet → Sheet × Nat × Bool
  | 0, done, s => (s, done, false)
  | cap + 1, done, s =>
    let (s', changed) := pass policy order s
    if changed then passes policy order cap (done + 1) s' else (s', done + 1, true)

def passOrder (ids : List Cell) : List Cell :=
  (Std.ExtTreeSet.ofList ids).toList.reverse

def settle (s : Sheet) (policy : Policy) (cap : Nat) (ids : List Cell) : Sheet × Stats :=
  let order := passOrder ids
  let (s', made, stable) := passes policy order cap 0 s
  let (valid, errors) := s'.counts order
  (s', ⟨made, stable, valid, errors⟩)

def settleAll (s : Sheet) (policy : Policy) (cap : Nat) : Sheet × Stats :=
  s.settle policy cap s.ids

end Sheet

end Spreadsheet
