import Spreadsheet.Formula.Arguments
import Spreadsheet.Formula.Arithmetic

namespace Spreadsheet

inductive Reduced
  | value (v : Value)
  | arithmetic (ts : List Token)

namespace Reduction

def operand : Value → Outcome Float
  | .empty => .ok 0
  | .number x => .ok x
  | .text s =>
    match Number.ofText? s with
    | some x => .ok x
    | none => .error .badValue
  | .error code => .error code

def member : Value → Outcome Float
  | .error code => .error code
  | value => .ok (value.number?.getD 0)

def members (lookup : Lookup) (r : Rectangle) : Outcome (List Float) :=
  match r.cells? with
  | some ids => ids.mapM fun id => member (lookup id)
  | none => .error .badValue

def arithmetic (lookup : Lookup) : List Token → Outcome (List Token)
  | [] => .ok []
  | .call f :: .openParen :: ts =>
    match _hs : Arguments.split ts with
    | .error code => .error code
    | .ok a => do
      let values ← a.args.attach.mapM fun ⟨arg, _hm⟩ =>
        match _ht : Arguments.strip arg with
        | [.range r] => members lookup r
        | [.cell id] => return [← member (lookup id)]
        | inner => do
          let x ← Arithmetic.value (← arithmetic lookup inner)
          return [x]
      let x ← f.apply values.flatten
      return .number x :: (← arithmetic lookup a.rest)
  | .call _ :: _ => .error .malformed
  | .cell id :: ts => do
    let x ← operand (lookup id)
    return .number x :: (← arithmetic lookup ts)
  | .range _ :: _ => .error .malformed
  | t :: ts => return t :: (← arithmetic lookup ts)
termination_by ts => ts.length
decreasing_by
  · have h := Arguments.length_strip_le arg
    rw [_ht] at h
    have := Arguments.length_of_mem _hs _hm
    simp only [List.length_cons] at *
    omega
  · have := Arguments.length_rest _hs
    simp only [List.length_cons]
    omega
  · simp
  · simp

end Reduction

def Formula.reduce (lookup : Lookup) : List Token → Outcome Reduced
  | [.cell id] =>
    match lookup id with
    | .empty => .ok (.value (.number 0))
    | .error code => .error code
    | v => .ok (.value v)
  | ts => do return .arithmetic (← Reduction.arithmetic lookup ts)

end Spreadsheet
