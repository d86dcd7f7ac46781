import Spreadsheet.Formula.Token

/-! Tokens are compiled to code for a stack of numbers. Operators are deferred until their right
operand is complete. -/

namespace Spreadsheet

namespace Arithmetic

inductive Instruction
  | push (x : Float)
  | negate
  | apply (op : Operator)
deriving DecidableEq

inductive Deferred
  | sign
  | operator (op : Operator)
deriving DecidableEq

namespace Deferred

def instruction : Deferred → Instruction
  | sign => .negate
  | operator op => .apply op

def precedes (op : Operator) : Deferred → Bool
  | sign => true
  | operator earlier => op.precedence ≤ earlier.precedence

end Deferred

/-- A compilation under way, with its code, what is deferred in the innermost open parenthesis, and
what is deferred outside of it. All lists have their latest entry first. -/
structure Compilation where
  code : List Instruction
  deferred : List Deferred
  enclosing : List (List Deferred)
  operandNext : Bool

namespace Compilation

def start : Compilation := ⟨[], [], [], true⟩

def emit (c : Compilation) (due : List Deferred) : List Instruction :=
  (due.map Deferred.instruction).reverse ++ c.code

def sign (c : Compilation) : Operator → Outcome Compilation
  | .add => .ok c
  | .sub => .ok { c with deferred := .sign :: c.deferred }
  | .mul | .div => .error .malformed

def binary (c : Compilation) (op : Operator) : Compilation :=
  { c with
    code := c.emit (c.deferred.takeWhile (·.precedes op))
    deferred := .operator op :: c.deferred.dropWhile (·.precedes op)
    operandNext := true }

def close (c : Compilation) : Outcome Compilation :=
  match c.enclosing with
  | [] => .error .malformed
  | outer :: enclosing => .ok ⟨c.emit c.deferred, outer, enclosing, false⟩

def step (c : Compilation) : Token → Outcome Compilation
  | .number x => .ok { c with code := .push x :: c.code, operandNext := false }
  | .operator op => if c.operandNext then c.sign op else .ok (c.binary op)
  | .openParen => .ok ⟨c.code, [], c.deferred :: c.enclosing, true⟩
  | .closeParen => c.close
  | .cell _ | .range _ | .call _ | .comma => .error .malformed

def finish (c : Compilation) : Outcome (List Instruction) :=
  match c.enclosing with
  | [] => .ok (c.emit c.deferred).reverse
  | _ :: _ => .error .malformed

end Compilation

def compile (ts : List Token) : Outcome (List Instruction) := do
  (← ts.foldlM Compilation.step .start).finish

def run : List Instruction → List Float → Outcome (List Float)
  | [], stack => .ok stack
  | .push x :: code, stack => run code (x :: stack)
  | .negate :: code, x :: stack => run code (-x :: stack)
  | .apply op :: code, y :: x :: stack => do run code ((← op.apply x y) :: stack)
  | _ :: _, _ => .error .malformed

def result : List Float → Outcome Float
  | [x] => if Number.isFinite x then .ok x else .error .badValue
  | _ => .error .malformed

def value (ts : List Token) : Outcome Float := do
  result (← run (← compile ts) [])

end Arithmetic

end Spreadsheet
