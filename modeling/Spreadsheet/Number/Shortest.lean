import Spreadsheet.Number.Nearest

/-! Among the decimals that read back as a double, one with the fewest digits, and of those the
nearest, a tie going up. -/

namespace Spreadsheet.Number

/-- `digits * 10 ^ exponent` -/
structure Decimal where
  digits : Nat
  exponent : Int
deriving DecidableEq

def Decimal.bits (d : Decimal) : Nat :=
  nearestDecimal d.digits d.exponent

def leadingZeros (num den : Nat) : Nat :=
  if num = 0 ∨ den ≤ 10 * num then 0 else leadingZeros (10 * num) den + 1
termination_by den - num
decreasing_by omega

def decimalExponent (num den : Nat) : Int :=
  if den ≤ num then (Nat.toDigits 10 (num / den)).length else -leadingZeros num den

/-- The multiples of `10 ^ e` next to a fraction, the nearer one first, that are off by no more than
half of its `m`-th part. Nothing further off reads back as a double whose integer part is `m`. -/
def neighbours (m num den : Nat) (e : Int) : List Decimal :=
  let n := num * Nat.pow 10 (-e).toNat
  let d := den * Nat.pow 10 e.toNat
  let below := n / d
  let r := n % d
  let lower := if 2 * r * m ≤ n then [⟨below, e⟩] else []
  let upper := if 2 * (d - r) * m ≤ n then [⟨below + 1, e⟩] else []
  if 2 * r < d then lower ++ upper else upper ++ lower

def exact (bits : Nat) : Decimal :=
  let (m, q) := mantissaExponent bits
  ⟨m * Nat.pow 2 q.toNat * Nat.pow 5 (-q).toNat, min q 0⟩

def shortest (bits : Nat) : Decimal :=
  let (num, den) := fraction bits
  let top := decimalExponent num den
  let found := (List.range 18).findSome? fun (places : Nat) =>
    (neighbours (mantissaExponent bits).1 num den (top - places)).find? (·.bits = bits)
  found.getD (exact bits)

end Spreadsheet.Number
