/-! Magnitudes of doubles are bit patterns without the sign: patterns grow with the number, and the
pattern after the largest finite number is infinity. -/

namespace Spreadsheet.Number

def infinityBits : Nat := 2047 * Nat.pow 2 52

def roundDiv (num den : Nat) : Nat :=
  let q := num / den
  let r := num % den
  if 2 * r < den ∨ (2 * r = den ∧ q % 2 = 0) then q else q + 1

def binaryExponent (num den : Nat) : Int :=
  let e : Int := num.log2 - den.log2
  if num * Nat.pow 2 (-e).toNat < den * Nat.pow 2 e.toNat then e - 1 else e

def nearest (num den : Nat) : Nat :=
  if num = 0 then 0
  else
    let q := max (-1074) (binaryExponent num den - 52)
    let m := roundDiv (num * Nat.pow 2 (-q).toNat) (den * Nat.pow 2 q.toNat)
    min infinityBits ((q + 1074).toNat * Nat.pow 2 52 + m)

/-- An exponent far out of range is settled before any power of ten is computed. -/
def nearestDecimal (n : Nat) (e : Int) : Nat :=
  if n = 0 then 0
  else if 400 < e then infinityBits
  else if (n.log2 : Int) + 1100 < 3 * -e then 0
  else nearest (n * Nat.pow 10 e.toNat) (Nat.pow 10 (-e).toNat)

/-- The integer `m` and exponent `q` with value `m * 2 ^ q` of a finite pattern. -/
def mantissaExponent (bits : Nat) : Nat × Int :=
  if bits < Nat.pow 2 52 then (bits, -1074)
  else (Nat.pow 2 52 + bits % Nat.pow 2 52, (bits / Nat.pow 2 52 : Nat) - 1075)

def fraction (bits : Nat) : Nat × Nat :=
  let (m, q) := mantissaExponent bits
  (m * Nat.pow 2 q.toNat, Nat.pow 2 (-q).toNat)

end Spreadsheet.Number
